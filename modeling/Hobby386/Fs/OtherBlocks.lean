import Hobby386.Fs.Kept

/-!
# Blocks of others

What is said about a file system depends on its own blocks only: the inodes, the bitmap and the
data. A disk that has the same blocks there carries the same file system, whatever is in the other
blocks.
-/

namespace Hobby386

open PointerForest

/-- The superblock is the same, and so are the blocks of the file system. -/
structure SameInside (fs fs' : Fs) : Prop where
  init_eq : fs'.init = fs.init
  su_eq : fs'.su = fs.su
  disk : ∀ b, ¬fs.su.Outside b → fs'.disk b = fs.disk b

namespace SameInside

variable {fs fs' : Fs} {inum n : ℕ} {D : List UInt8} (h : SameInside fs fs') (hwf : WellFormed fs)

include h hwf

/-- The inode table and the bitmap are inside. -/
theorem dinode (hinum : inum < 200) : fs'.dinode inum = fs.dinode inum :=
  Fs.dinode_congr h.su_eq (h.disk _ fun hout => (hwf.outside hout).2.2.2 inum hinum rfl)

/-- The bitmap stays. -/
theorem bitmap : fs'.disk fs.su.sbitmap = fs.disk fs.su.sbitmap :=
  h.disk _ fun hout => (hwf.outside hout).2.2.1 rfl

/-- A block that is pointed to is the same. -/
theorem owned (hn : 0 < fs.owners n) : fs'.disk n = fs.disk n := by
  refine h.disk n fun hout => ?_
  rw [(hwf.outside hout).1] at hn
  exact absurd hn (lt_irrefl 0)

/-- So is every block of an inode in use. -/
theorem blocks (hinum : inum < 200) (hused : (fs.dinode inum).type ≠ 0) {m : ℕ}
    (hm : 0 < PointerForest.refs Block.ptrs fs.disk (fs.dinode inum).forest m) :
    fs'.disk m = fs.disk m := by
  have hrefs : fs.refs inum m = PointerForest.refs Block.ptrs fs.disk (fs.dinode inum).forest m :=
    if_neg hused
  exact h.owned hwf (Nat.lt_of_lt_of_le (hrefs ▸ hm) (Fs.refs_le_owners hinum m))

/-- Hence the files are the same. -/
theorem sameFile (hinum : inum < 200) (hused : (fs.dinode inum).type ≠ 0) : SameFile fs fs' inum := by
  have hdinode := h.dinode hwf hinum
  have hlookup (k : ℕ) : fs'.fileBlock inum k = fs.fileBlock inum k := by
    rw [Fs.fileBlock, Fs.fileBlock, hdinode]
    exact lookup_frame (fun m hm => h.blocks hwf hinum hused hm) 0 k
  refine ⟨hdinode, hlookup, fun x => ?_⟩
  rw [Fs.content, Fs.content, hlookup]
  split
  · rfl
  · rename_i hne
    have howned : 0 < PointerForest.refs Block.ptrs fs.disk (fs.dinode inum).forest
        (fs.fileBlock inum (x / blockSize)) :=
      refs_lookup hne
    rw [h.blocks hwf hinum hused howned]

/-- The directories stay. -/
theorem sameDir (hinum : inum < 200) (hdir : (fs.dinode inum).type = tDir) : SameDir fs fs' inum := by
  have hsame := h.sameFile hwf hinum (by rw [hdir]; decide)
  exact ⟨by rw [hsame.dinode], hsame.fileBlock, hsame.content⟩

/-- And the owners of the blocks. -/
theorem owners : fs'.owners = fs.owners := by
  funext n
  refine Finset.sum_congr rfl fun i hi => ?_
  rw [Finset.mem_range] at hi
  rw [Fs.refs, Fs.refs, h.dinode hwf hi]
  split
  · rfl
  · rename_i hused
    exact refs_frame (fun m hm => h.blocks hwf hi hused hm) n

/-- The marks of the blocks stay. -/
theorem marked (n : ℕ) : Hobby386.marked fs'.su fs'.disk n = Hobby386.marked fs.su fs.disk n := by
  rw [h.su_eq]
  exact marked_congr (h.bitmap hwf) n

/-- Well-formedness stays. -/
theorem wellFormed : WellFormed fs' where
  init := h.init_eq.trans hwf.init
  layout := by rw [h.su_eq]; exact hwf.layout
  accounts := by
    intro n
    rw [h.owners hwf, h.marked hwf, h.su_eq]
    exact hwf.accounts n

omit hwf in
/-- Soundness stays. -/
theorem sound (hsound : Sound fs) : Sound fs' where
  wellFormed := h.wellFormed hsound.wellFormed
  dirs := by
    have hwf := hsound.wellFormed
    constructor
    · intro i hi hdir
      rw [h.dinode hwf hi] at hdir
      exact (h.sameDir hwf hi hdir).goodDir (hsound.dirs.dirs i hi hdir)
    · intro i hi hdir
      rw [h.dinode hwf hi] at hdir
      rw [(h.sameDir hwf hi hdir).dirents_eq]
      exact hsound.dirs.inums i hi hdir
  null := by rw [h.dinode hsound.wellFormed (by decide)]; exact hsound.null
  root := by rw [h.dinode hsound.wellFormed (by decide)]; exact hsound.root

omit hwf in
/-- Sanity stays. -/
theorem sane (hsane : Sane fs) : Sane fs' where
  sound := h.sound hsane.sound
  noLeak := by
    intro n hn hmarked
    rw [h.su_eq] at hn
    rw [h.marked hsane.sound.wellFormed] at hmarked
    rw [h.owners hsane.sound.wellFormed]
    exact hsane.noLeak n hn hmarked
  nblockDat_le := by rw [h.su_eq]; exact hsane.nblockDat_le

/-- The directory tree stays. -/
theorem tree (htree : Tree fs) : Tree fs' := by
  refine htree.congr (fun i hi => ?_) fun i hi hdir => (h.sameDir hwf hi hdir).dirents_eq
  rw [h.dinode hwf hi]
  exact ⟨rfl, rfl⟩

/-- Every directory has the same entries, so every path leads to the same inode. -/
theorem child (hinum : inum < 200) (name : List UInt8) : fs'.child inum name = fs.child inum name := by
  rw [Fs.child, Fs.child, h.dinode hwf hinum]
  split
  · rename_i hdir
    rw [(h.sameDir hwf hinum hdir).dirents_eq]
  · rfl

end SameInside

/-! ## What is kept on a partition -/

/-- What a run keeps of the file system itself. -/
structure FilesKept (W : ℕ → Prop) (fs fs' : Fs) : Prop where
  files : ∀ inum < 200, (fs.dinode inum).type = tReg → ¬W inum → SameFile fs fs' inum
  names : ∀ names, fs.resolve rootInum names ≠ nullInum →
    fs'.resolve rootInum names = fs.resolve rootInum names

variable {fs fs' fs₁ : Fs} {W : ℕ → Prop}

/-- A run that keeps the rest keeps the files. -/
theorem RunKeeps.filesKept (h : RunKeeps W fs fs') : FilesKept W fs fs' := ⟨h.files, h.names⟩

/-- Files that are kept twice are kept. -/
theorem FilesKept.trans (h : FilesKept W fs fs₁) (h' : FilesKept W fs₁ fs') : FilesKept W fs fs' where
  files := fun inum hinum hreg hspared => by
    have hfirst := h.files inum hinum hreg hspared
    exact hfirst.trans (h'.files inum hinum (by rw [hfirst.dinode, hreg]) hspared)
  names := fun names hne => by
    have hfirst := h.names names hne
    rw [h'.names names (hfirst ▸ hne), hfirst]

/-- A change outside the file system keeps the files. -/
theorem SameInside.filesKept (h : SameInside fs fs') (hsound : Sound fs) : FilesKept W fs fs' where
  files := fun _ hinum hreg _ => h.sameFile hsound.wellFormed hinum (by rw [hreg]; decide)
  names := fun _ hne => resolve_mono hsound.dirs
    (fun _ hi name _ => h.child hsound.wellFormed hi name) (by decide) hne

/-- A file that is kept is found under its path. -/
theorem FilesKept.found {dst : CString} {n : ℕ} {D : List UInt8} (h : FilesKept (· ≠ n) fs fs')
    (hsound : Sound fs) (hsound' : Sound fs') (hn : n ≠ nullInum)
    (hlookup : fsLookup fs (some dst) = .ok (n, fs)) (hholds : Holds fs n D) :
    fsLookup fs' (some dst) = .ok (n, fs') ∧ Holds fs' n D := by
  have hwf := hsound.wellFormed
  have hwf' := hsound'.wellFormed
  obtain ⟨tail, hbytes, hlen, hshort, hresolve⟩ :=
    resolve_of_fsLookup hwf.init hwf.layout hsound.dirs hlookup hn
  refine ⟨?_, (h.files n hholds.stored.inum_lt hholds.stored.reg (not_not_intro rfl)).holds hholds⟩
  rw [fsLookup_of_pathNames hwf'.init hwf'.layout hsound'.dirs hbytes hlen hshort,
    h.names _ (hresolve ▸ hn), hresolve]

end Hobby386
