import Hobby386.Fs.Chunks
import Hobby386.Fs.Remount

/-!
# What a run keeps

Runs of calls that create directories and regular files, and write to some of the regular files.
Such a run keeps the directory tree, every block outside the inodes, the bitmap and the data, and
every file that it is not allowed to write to.
-/

namespace Hobby386

open PointerForest Runs

variable {fs fs' : Fs} {c : Call} {ret : ℤ} {t : List (Call × ℤ)} {inum : ℕ} {W : ℕ → Prop}

/-- The call creates a directory or a regular file, or writes to a regular file of `W`, or only reads. -/
def Call.On (W : ℕ → Prop) (fs : Fs) : Call → Prop
  | .mknod _ type => type = tReg ∨ type = tDir
  | .write inum buf sz off => (Call.write inum buf sz off).OnFiles fs ∧ W inum
  | _ => True

/-- Runs of such calls. -/
abbrev RunOn (W : ℕ → Prop) : Fs → List (Call × ℤ) → Fs → Prop := Run Call.exec fun _ => Call.On W

/-- Calls on these inodes are calls on files. -/
theorem Call.On.onFiles (h : c.On W fs) : c.OnFiles fs := by
  cases c with
  | mknod path type => trivial
  | write inum buf sz off => exact h.1
  | read inum buf sz off => trivial
  | lookup path => trivial

/-- A run on these inodes is a run on files. -/
theorem RunOn.fileRun (h : RunOn W fs t fs') : FileRun fs t fs' := h.mono fun _ _ _ hon => hon.onFiles

/-- Block `b` lies in front of the inodes or behind the data. -/
def Superblock.Outside (su : Superblock) (b : ℕ) : Prop := b < su.sinode ∨ su.sdata + su.nblockDat ≤ b

/-! ## Blocks outside -/

section Outside

variable {n b : ℕ} {w : WriteRequest}

/-- The file system owns no block outside, and none of its own blocks is outside. -/
theorem WellFormed.outside (hwf : WellFormed fs) (hb : fs.su.Outside b) :
    fs.owners b = 0 ∧ b ∉ freeBlocks fs.su fs.disk ∧ b ≠ fs.su.sbitmap ∧
      ∀ i < 200, b ≠ fs.su.sinode + i / 8 := by
  have hnot : ¬fs.su.InData b := by
    intro hdata
    have hlow := hdata.1
    have hhigh := hdata.2
    have hsinode := hwf.layout.sinode
    have hsdata := hwf.layout.sdata
    rw [Superblock.Outside] at hb
    omega
  refine ⟨?_, fun hfree => hnot (of_mem_freeBlocks hfree).1, ?_, fun i hi => ?_⟩
  · by_contra hne
    exact hnot ((hwf.accounts b).2 (Nat.pos_of_ne_zero hne)).1
  · have hlayout := hwf.layout
    have hsinode := hlayout.sinode
    have hsbitmap := hlayout.sbitmap
    have hsdata := hlayout.sdata
    rw [Superblock.Outside] at hb
    omega
  · have hlt := hwf.layout.inodeBlock_lt hi
    have hsdata := hwf.layout.sdata
    have hsbitmap := hwf.layout.sbitmap
    rw [Superblock.Outside] at hb
    omega

/-- A write changes no block outside. -/
theorem FileWritten.outside (h : FileWritten fs inum w n fs') (hwf : WellFormed fs)
    (halloc : fs.Allocated inum) (hb : fs.su.Outside b) : fs'.disk b = fs.disk b := by
  have hinum : inum < 200 := hwf.layout.ninodes ▸ halloc.1
  obtain ⟨howners, hfree, hbitmap, hinodes⟩ := hwf.outside hb
  apply h.frame b hbitmap (hinodes inum hinum)
  have hrefs : fs.refs inum b ≤ fs.owners b := Fs.refs_le_owners hinum b
  have htaken : (fs.taken inum w).count b = 0 :=
    List.count_eq_zero_of_not_mem fun hmem => hfree (List.mem_of_mem_take hmem)
  rw [h.owned b, htaken]
  omega

/-- Creating an inode changes no block outside. -/
theorem fsMknod_outside (hsound : Sound fs) {path : Option CString} {type : ℕ} {r : ℕ × Fs}
    (h : fsMknod fs path type = .ok r) (hb : fs.su.Outside b) : r.2.disk b = fs.disk b := by
  have hwf := hsound.wellFormed
  rcases fsMknod_stages hwf hsound.null h with
    ⟨-, hsame⟩ | ⟨p, name, parent, d, x, -, htype, ⟨hx, hfree, -⟩, hpasses, hlink⟩
  · rw [hsame]
  · obtain ⟨k, fs₂, di, -, hwritten, -, -, hsame, -⟩ :=
      linkInode_steps hwf hpasses.lt hpasses.dir hx hfree htype hlink
    obtain ⟨hwf₁, halloc₁, -⟩ := wellFormed_newInode hwf hpasses.lt hpasses.dir hx hfree htype
    obtain ⟨-, -, -, hinodes⟩ := hwf.outside hb
    have hsu : fs₂.su = fs.su := hwritten.su_eq
    have hfirst : (fs.setDinode x { Dinode.zero with type := type }).disk b = fs.disk b :=
      Fs.setDinode_disk_of_ne (hinodes x hx)
    have hlast : (fs₂.setDinode x di).disk b = fs₂.disk b :=
      Fs.setDinode_disk_of_ne (hsu ▸ hinodes x hx)
    rw [hsame]
    dsimp only
    rw [hlast, hwritten.outside hwf₁ halloc₁ hb, hfirst]

/-- No call changes a block outside. -/
theorem Sound.exec_outside (hsound : Sound fs) (hfiles : c.OnFiles fs) (h : c.exec fs = .ok (ret, fs'))
    (hb : fs.su.Outside b) : fs'.disk b = fs.disk b := by
  have heffect := hsound.exec_effect hfiles h
  cases heffect with
  | silent same failed => rw [same]
  | linked hx hfree htype checks effect =>
    rw [Call.exec, bind_eq_ok] at h
    obtain ⟨r, hmknod, h⟩ := h
    cases h
    exact fsMknod_outside hsound hmknod hb
  | written effect => exact effect.outside hsound.wellFormed hfiles.applicable.1 hb

end Outside

/-! ## Files that are not written to -/

/-- A file is the same in both states. -/
structure SameFile (fs fs' : Fs) (inum : ℕ) : Prop where
  dinode : fs'.dinode inum = fs.dinode inum
  fileBlock : ∀ k, fs'.fileBlock inum k = fs.fileBlock inum k
  content : ∀ x, fs'.content inum x = fs.content inum x

/-- A file that is the same holds the same bytes. -/
theorem SameFile.holds {D : List UInt8} (h : SameFile fs fs' inum) (hholds : Holds fs inum D) :
    Holds fs' inum D where
  stored :=
    { inum_lt := hholds.stored.inum_lt
      reg := by rw [h.dinode]; exact hholds.stored.reg
      size := fun hn => by rw [h.dinode]; exact hholds.stored.size hn
      mapped := fun x hlow hhigh => by rw [h.fileBlock]; exact hholds.stored.mapped x hlow hhigh
      content := fun x hlow hhigh => by rw [h.content]; exact hholds.stored.content x hlow hhigh }
  size := by rw [h.dinode]; exact hholds.size

/-- A call keeps every regular file that it does not write to. -/
theorem CallEffect.sameFile (heffect : CallEffect fs c ret fs') (hwf : WellFormed fs) (hon : c.On W fs)
    (hinum : inum < 200) (hreg : (fs.dinode inum).type = tReg) (hspared : ¬W inum) :
    SameFile fs fs' inum := by
  have hused : (fs.dinode inum).type ≠ 0 := by rw [hreg]; decide
  cases heffect with
  | silent same failed =>
    rw [same]
    exact ⟨rfl, fun _ => rfl, fun _ => rfl⟩
  | @linked path name parent type d x k m fs' hx hfree htype checks effect =>
    have hx' : inum ≠ x := by rintro rfl; exact hused hfree
    have hd : inum ≠ d := (ne_of_dir hreg checks.dir).symm
    exact ⟨effect.others inum hinum hd hx', effect.fileBlock_others inum hinum hd hused,
      effect.content_others inum hinum hd hused⟩
  | @written i k off buf sz fs' effect =>
    have halloc := hon.onFiles.applicable.1
    have hi : inum ≠ i := by rintro rfl; exact hspared hon.2
    exact ⟨effect.others inum hinum hi, fun k => effect.fileBlock_other hwf halloc hinum hi hused k,
      fun x => effect.content_other hwf halloc hinum hi hused x⟩

/-- A call that creates directories and regular files only keeps the tree. -/
theorem Tree.call_on (htree : Tree fs) (hsound : Sound fs) (hon : c.On W fs)
    (heffect : CallEffect fs c ret fs') :
    Tree fs' := by
  cases heffect with
  | silent same failed =>
    rw [same]
    exact ⟨htree.distinct, htree.names, htree.links, htree.linkcnt⟩
  | linked hx hfree htype checks effect =>
    refine htree.link hsound checks.lt checks.dir hx hfree effect ?_ checks
    rcases hon with rfl | rfl
    · decide
    · decide
  | written effect => exact htree.call (c := .write _ _ _ _) hsound hon.1 (.written effect)

/-! ## Runs -/

/-- What a run of these calls keeps. -/
structure RunKeeps (W : ℕ → Prop) (fs fs' : Fs) : Prop where
  su_eq : fs'.su = fs.su
  outside : ∀ b, fs.su.Outside b → fs'.disk b = fs.disk b
  files : ∀ inum < 200, (fs.dinode inum).type = tReg → ¬W inum → SameFile fs fs' inum
  types : ∀ inum < 200, (fs.dinode inum).type ≠ 0 → (fs'.dinode inum).type = (fs.dinode inum).type
  names : ∀ names, fs.resolve rootInum names ≠ nullInum →
    fs'.resolve rootInum names = fs.resolve rootInum names

/-- A file that stays the same twice. -/
theorem SameFile.trans {fs₁ : Fs} (h : SameFile fs fs₁ inum) (h' : SameFile fs₁ fs' inum) :
    SameFile fs fs' inum where
  dinode := by rw [h'.dinode, h.dinode]
  fileBlock := fun k => by rw [h'.fileBlock, h.fileBlock]
  content := fun x => by rw [h'.content, h.content]

/-- Two runs, one after the other. -/
theorem RunKeeps.trans {fs₁ : Fs} (h : RunKeeps W fs fs₁) (h' : RunKeeps W fs₁ fs') :
    RunKeeps W fs fs' where
  su_eq := by rw [h'.su_eq, h.su_eq]
  outside := fun b hb => by rw [h'.outside b (h.su_eq ▸ hb), h.outside b hb]
  files := fun inum hinum hreg hspared => by
    have hfirst := h.files inum hinum hreg hspared
    exact hfirst.trans (h'.files inum hinum (by rw [hfirst.dinode, hreg]) hspared)
  types := fun inum hinum hused => by
    have hfirst := h.types inum hinum hused
    rw [h'.types inum hinum (hfirst ▸ hused), hfirst]
  names := fun names hne => by
    have hfirst := h.names names hne
    rw [h'.names names (hfirst ▸ hne), hfirst]

/-- Paths do not depend on the messages. -/
theorem SameStore.resolve_eq (h : SameStore fs fs') (inum : ℕ) (names : List (List UInt8)) :
    fs'.resolve inum names = fs.resolve inum names := by
  have hchild (i : ℕ) (name : List UInt8) : fs'.child i name = fs.child i name := by
    rw [h]
    rfl
  induction names generalizing inum with
  | nil => rfl
  | cons name names ih => rw [Fs.resolve, Fs.resolve, hchild, ih]

/-- States that differ in the messages only. -/
theorem RunKeeps.of_sameStore (h : SameStore fs fs') : RunKeeps W fs fs' := by
  have hnames := h.resolve_eq rootInum
  rw [h] at hnames ⊢
  exact ⟨rfl, fun _ _ => rfl, fun _ _ _ _ => ⟨rfl, fun _ => rfl, fun _ => rfl⟩, fun _ _ _ => rfl,
    fun names _ => hnames names⟩

/-- One call keeps what it is not allowed to write. -/
theorem Sound.keeps_call (hsound : Sound fs) (hon : c.On W fs) (h : c.exec fs = .ok (ret, fs')) :
    RunKeeps W fs fs' where
  su_eq := (hsound.exec_effect hon.onFiles h).su_eq
  outside := fun _ hb => hsound.exec_outside hon.onFiles h hb
  files := fun _ hinum hreg hspared =>
    (hsound.exec_effect hon.onFiles h).sameFile hsound.wellFormed hon hinum hreg hspared
  types := fun _ hinum hused => (hsound.exec_effect hon.onFiles h).type_kept hinum hused
  names := fun _ hne => (hsound.exec_effect hon.onFiles h).resolve_eq hsound hon.onFiles hne

/-- A run keeps what its calls are not allowed to write. -/
theorem Sound.keeps_run (hsound : Sound fs) (h : RunOn W fs t fs') : RunKeeps W fs fs' := by
  have hboth : Sound fs' ∧ RunKeeps W fs fs' := by
    refine h.preserves (I := fun fs₁ => Sound fs₁ ∧ RunKeeps W fs fs₁) ?_
      ⟨hsound, .of_sameStore (.refl fs)⟩
    intro _ fs₁ c ret fs₂ ⟨hs, hkept⟩ hon hexec
    exact ⟨hs.call hon.onFiles (hs.exec_effect hon.onFiles hexec), hkept.trans (hs.keeps_call hon hexec)⟩
  exact hboth.2

/-- Such a run keeps the invariants of the store and of the tree. -/
theorem Sane.run_on (hsane : Sane fs) (htree : Tree fs) (h : RunOn W fs t fs') : Sane fs' ∧
    Tree fs' := by
  refine h.preserves (I := fun fs => Sane fs ∧ Tree fs) ?_ ⟨hsane, htree⟩
  intro _ fs₁ c ret fs₂ ⟨hs, ht⟩ hon hexec
  exact ⟨hs.call hon.onFiles hexec, ht.call_on hs.sound hon (hs.sound.exec_effect hon.onFiles hexec)⟩

/-- What has been created under a path other than the root path is what the path leads to from then
on, if the path fits its buffer. -/
theorem Sound.lookup_created (hsound : Sound fs) {path : CString} {type m : ℕ}
    (h : fsMknod fs (some path) type = .ok (m, fs')) (hm : m ≠ nullInum) (hroot : path.bytes ≠ [slash])
    (hlen : path.bytes.length < maxPath) {fs₁ : Fs} (hsound₁ : Sound fs₁) (hkept : RunKeeps W fs' fs₁) :
    fsLookup fs₁ (some path) = .ok (m, fs₁) := by
  have hwf := hsound.wellFormed
  obtain ⟨p, name, parent, d, hp, -, hx, hfree, hchecks, heffect, -⟩ :=
    fsMknod_linked hwf hsound.null h hm
  cases hp
  obtain ⟨tail, hname⟩ := getname_eq_some hchecks.getname
  have hnonempty : name.bytes ≠ [] := fun hnil => hroot (hname.name_nil hnil)
  obtain ⟨⟨d', fs₂⟩, hlookup, rfl⟩ := hchecks.lookup
  obtain ⟨ptail, hparent, -, hshort, hd⟩ :=
    resolve_of_fsLookup hwf.init hwf.layout hsound.dirs hlookup hchecks.ne_null
  obtain ⟨rest, hbytes, hnames⟩ := hname.pathNames_eq hparent hnonempty
  have hd' : fs'.resolve rootInum (pathNames ptail) = d' := by
    rw [resolve_mono hsound.dirs
      (fun i hi s hne => heffect.child_kept hsound hchecks.lt hchecks.dir hx hfree hi hne)
      (by decide) (hd ▸ hchecks.ne_null), hd]
  have hfound : fs'.resolve rootInum (pathNames rest) = m := by
    rw [hnames, resolve_append (hd' ▸ hchecks.ne_null), hd',
      heffect.child_new hsound hchecks.lt hchecks.dir hx rfl hname.name_lt (hchecks.child_eq hsound)]
  have hallShort : ∀ s ∈ pathNames rest, s.length < maxName := by
    intro s hs
    rw [hnames, List.mem_append, List.mem_singleton] at hs
    rcases hs with hs | rfl
    · exact hshort s hs
    · exact hname.name_lt
  rw [fsLookup_of_pathNames hsound₁.wellFormed.init hsound₁.wellFormed.layout hsound₁.dirs hbytes
    hlen hallShort, hkept.names _ (hfound ▸ hm), hfound]

/-! ## Mounting -/

section Mount

variable {p : Partition} {disk : Disk} {fs₀ : Fs}

/-- A new start of `mkfs` finds the file system as it is. -/
theorem Mounted.mkfsMount_eq (h : Mounted p fs) :
    mkfsMount (Fs.boot fs.disk) p = .ok { fs with printed := [] } := by
  have hmount : fsInit (Fs.boot fs.disk) p = (true, { fs with printed := [] }) := by
    have hsuper : ((Fs.boot fs.disk).diskRead p.startlba).su = fs.su := h.super
    rw [fsInit, hsuper, if_neg (not_not_intro h.magic), ← h.init]
    rfl
  rw [mkfsMount, hmount]
  rfl

/-- Mounting does not write. -/
theorem fsInit_disk (fs : Fs) (p : Partition) : (fsInit fs p).2.disk = fs.disk := by
  rw [fsInit]
  split <;> rfl

/-- Formatting a partition of zeros touches no block of the rest of the disk. -/
theorem mkfsMount_frame (hp : p.Usable) (hzero : ∀ n, p.Contains n → disk n = .zero)
    (h : mkfsMount (Fs.boot disk) p = .ok fs₀) {n : ℕ} (hn : ¬p.Contains n) : fs₀.disk n = disk n := by
  have hlow := hp.nonempty
  have hstart : disk p.startlba = .zero := hzero _ ⟨le_rfl, by omega⟩
  have hfail : fsInit (Fs.boot disk) p = (false, { Fs.boot disk with su := Block.zero.su }) :=
    fsInit_of_zero hstart
  have htot : (Block.zero.su).nblockTot = 0 := by
    simp [Block.su, Block.ptr, LittleEndian.value]
  rw [Partition.Contains] at hn
  rw [mkfsMount, hfail] at h
  dsimp only at h
  rw [if_neg (by decide)] at h
  generalize hblank : ({ Fs.boot disk with su := Block.zero.su } : Fs) = fs₁ at h
  have hdisk : fs₁.disk = disk := by rw [← hblank]; rfl
  obtain ⟨-, -, -, -, hframe⟩ := reserves_fsFormat fs₁ hp
  have hkeeps := fsInit_disk (fsFormat fs₁ p) p
  generalize fsInit (fsFormat fs₁ p) p = r at h hkeeps
  split at h
  · cases h
    rw [hkeeps, hframe n (by omega), ← hdisk]
    rcases blankFormat_disk fs₁ (show n ≠ p.startlba by omega) with ⟨⟨i, hi, -⟩, -⟩ | ⟨-, hkept⟩
    · rw [← hblank] at hi
      dsimp only at hi
      omega
    · exact hkept
  · cases h

end Mount

end Hobby386
