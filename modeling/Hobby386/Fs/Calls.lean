import Hobby386.Lib.Runs
import Hobby386.Fs.Format
import Hobby386.Fs.Sound

/-!
# Calls of the interface

The calls a program makes between mounting and the end, and the effects each of them can have on a
file system. Every invariant over whole runs is proved once for each kind of effect.
-/

namespace Hobby386

open PointerForest

/-- A call of the file system interface with its arguments. -/
inductive Call
  | mknod (path : Option CString) (type : ℕ)
  | write (inum : ℕ) (buf : Memory) (sz : ℤ) (off : ℕ)
  | read (inum : ℕ) (buf : Memory) (sz : ℤ) (off : ℕ)
  | lookup (path : Option CString)

/-- Making a call: its return value and the new state. -/
def Call.exec : Call → Fs → Except Fault (ℤ × Fs)
  | .mknod path type, fs => do
    let r ← fsMknod fs path type
    .ok (r.1, r.2)
  | .write inum buf sz off, fs => fsWrite fs inum buf sz off
  | .read inum buf sz off, fs => do
    let r ← fsRead fs inum buf sz off
    .ok (r.1, r.2.2)
  | .lookup path, fs => do
    let r ← fsLookup fs path
    .ok (r.1, r.2)

/-- A creation as a call. -/
theorem exec_mknod {fs fs' : Fs} {path : Option CString} {type m : ℕ}
    (h : fsMknod fs path type = .ok (m, fs')) :
    (Call.mknod path type).exec fs = .ok ((m : ℤ), fs') := by rw [Call.exec, h, ok_bind]

/-- A write goes to an inode that is in use, at a 32-bit offset. -/
def Call.Applicable (fs : Fs) : Call → Prop
  | .write inum _ _ off => fs.Allocated inum ∧ off < 4294967296
  | _ => True

/-- A write goes to a regular file. -/
def Call.OnFiles (fs : Fs) : Call → Prop
  | .write inum _ _ off => inum < fs.su.ninodes ∧ (fs.dinode inum).type = tReg ∧ off < 4294967296
  | _ => True

/-- The path fits the buffers of the two parsers. -/
def FittingPath (path : Option CString) : Prop :=
  ∃ p, path = some p ∧ p.bytes.length < maxPath ∧ p.ShortNames

/-- Writes go to regular files, and inodes are created with a proper type under a path that fits. -/
def Call.Proper (fs : Fs) : Call → Prop
  | .mknod path type => type ∈ [tReg, tDir, tDev] ∧ FittingPath path
  | c => c.OnFiles fs

variable {fs fs' : Fs} {c : Call} {ret : ℤ}

/-- Proper calls write to regular files only. -/
theorem Call.Proper.onFiles (h : c.Proper fs) : c.OnFiles fs := by
  cases c with
  | mknod path type => trivial
  | write inum buf sz off => exact h
  | read inum buf sz off => trivial
  | lookup path => trivial

/-- Calls that write to regular files are applicable. -/
theorem Call.OnFiles.applicable (h : c.OnFiles fs) : c.Applicable fs := by
  cases c with
  | mknod path type => trivial
  | write inum buf sz off =>
    obtain ⟨hinum, htype, hoff⟩ := h
    exact ⟨⟨hinum, by rw [htype]; decide⟩, hoff⟩
  | read inum buf sz off => trivial
  | lookup path => trivial

/-- What a call can do: nothing but print, link a new inode, or write to an inode. -/
inductive CallEffect (fs : Fs) : Call → ℤ → Fs → Prop
  | silent {c : Call} {ret : ℤ} {fs' : Fs} (same : SameStore fs fs')
      (failed : ∀ path type, c = .mknod path type → ret = nullInum) : CallEffect fs c ret fs'
  | linked {path name parent : CString} {type n x k m : ℕ} {fs' : Fs} (hx : x < 200)
      (hfree : (fs.dinode x).type = 0) (htype : type ≤ 3) (checks : MknodChecks fs path name parent n)
      (effect : LinkEffect fs type n name x k m fs') : CallEffect fs (.mknod (some path) type) m fs'
  | written {inum n off : ℕ} {buf : Memory} {sz : ℤ} {fs' : Fs}
      (effect : FileWritten fs inum (writeRequest buf (bits32 sz) off) n fs') :
      CallEffect fs (.write inum buf sz off) n fs'

/-- A write of a size out of bounds prints a message. -/
theorem sameStore_fsWrite {inum off : ℕ} {buf : Memory} {sz : ℤ} {r : ℤ × Fs}
    (hsz : 0xefffffff < bits32 sz) (h : fsWrite fs inum buf sz off = .ok r) : SameStore fs r.2 := by
  rw [fsWrite, inodeRw] at h
  dsimp only at h
  split at h
  · cases h
    exact SameStore.printf _ _ _
  · cases h
    exact SameStore.printf _ _ _

/-- The effect of a call that returns. -/
theorem Call.exec_effect (hwf : WellFormed fs) (hnull : (fs.dinode nullInum).type ≠ 0)
    (happl : c.Applicable fs) (h : c.exec fs = .ok (ret, fs')) : CallEffect fs c ret fs' := by
  cases c with
  | mknod path type =>
    rw [Call.exec, bind_eq_ok] at h
    obtain ⟨⟨m, fs₁⟩, hmknod, h⟩ := h
    cases h
    rcases fsMknod_cases hwf hnull hmknod with
      ⟨hm, hsame⟩ | ⟨p, name, parent, n, x, k, rfl, htype, hx, hfree, -, hchecks, heffect⟩
    · exact .silent hsame fun _ _ _ => congrArg Nat.cast hm
    · exact .linked hx hfree htype hchecks heffect
  | write inum buf sz off =>
    rw [Call.exec] at h
    by_cases hsz : bits32 sz ≤ 0xefffffff
    · obtain ⟨n, hn, -, hwritten⟩ := fsWrite_spec hwf happl.1 hsz happl.2 h
      dsimp only at hn hwritten
      subst hn
      exact .written hwritten
    · exact .silent (sameStore_fsWrite (Nat.not_le.mp hsz) h) fun _ _ h => nomatch h
  | read inum buf sz off =>
    rw [Call.exec, bind_eq_ok] at h
    obtain ⟨r, hread, h⟩ := h
    cases h
    exact .silent (sameStore_fsRead hread) fun _ _ h => nomatch h
  | lookup path =>
    rw [Call.exec, bind_eq_ok] at h
    obtain ⟨r, hlookup, h⟩ := h
    cases h
    exact .silent (sameStore_fsLookup hlookup) fun _ _ h => nomatch h

/-- An inode in use keeps its type. -/
theorem CallEffect.type_kept (h : CallEffect fs c ret fs') {i : ℕ} (hi : i < 200)
    (hused : (fs.dinode i).type ≠ 0) : (fs'.dinode i).type = (fs.dinode i).type := by
  cases h with
  | silent same failed =>
    rw [same]
    rfl
  | @linked path name parent type n x k m fs' hx hfree htype checks effect =>
    have hix : i ≠ x := by rintro rfl; exact hused hfree
    by_cases hin : i = n
    · rw [hin, effect.parent]
    · rw [effect.others i hi hin hix]
  | written effect => exact effect.type_eq hi

/-- Calls on inodes in use keep the file system well formed. -/
theorem CallEffect.wellFormed (h : CallEffect fs c ret fs') (hwf : WellFormed fs)
    (happl : c.Applicable fs) :
    WellFormed fs' := by
  cases h with
  | silent same failed => exact hwf.of_sameStore same
  | linked hx hfree htype checks effect => exact effect.wellFormed
  | written effect => exact effect.wellFormed hwf happl.1

/-- Calls that write to regular files only keep the file system sound. -/
theorem Sound.call (hsound : Sound fs) (hfiles : c.OnFiles fs) (heffect : CallEffect fs c ret fs') :
    Sound fs' := by
  cases heffect with
  | silent same failed => exact hsound.of_sameStore same
  | linked hx hfree htype checks effect => exact hsound.link checks.lt checks.dir hx hfree effect
  | written effect =>
    obtain ⟨hinum, hreg, -⟩ := hfiles
    exact hsound.write hreg (hsound.wellFormed.layout.ninodes ▸ hinum) effect

/-- No call loses a block. -/
theorem NoLeak.call (hleak : NoLeak fs) (hwf : WellFormed fs) (happl : c.Applicable fs)
    (heffect : CallEffect fs c ret fs') : NoLeak fs' := by
  cases heffect with
  | silent same failed =>
    rw [same]
    exact hleak
  | linked hx hfree htype checks effect => exact effect.noLeak hleak
  | written effect =>
    intro b hdata hmarked
    rw [effect.su_eq] at hdata
    exact effect.owned_of_marked hwf happl.1 hdata (hleak b hdata) hmarked

/-! ## Empty file systems -/

section Formatted

variable (h : Formatted fs)

include h

/-- An empty file system has no pointers. -/
theorem Formatted.bare {i : ℕ} (hi : i < 200) (hused : (fs.dinode i).type ≠ 0) :
    fs.dinode i = { Dinode.zero with type := tDir } := by
  by_cases h0 : i = nullInum
  · rw [h0, h.null]
  · by_cases h1 : i = rootInum
    · rw [h1, h.root]
    · exact absurd (h.free i hi h0 h1) hused

/-- In an empty file system no block has an owner. -/
theorem Formatted.owners_eq_zero (b : ℕ) : fs.owners b = 0 := by
  apply Finset.sum_eq_zero
  intro i hi
  by_cases hused : (fs.dinode i).type = 0
  · exact Fs.refs_of_free hused
  · exact Fs.refs_of_bare (by rw [h.bare (Finset.mem_range.mp hi) hused]; exact Dinode.bare_zero tDir) b

/-- In an empty file system no block is marked. -/
theorem Formatted.not_marked (b : ℕ) : marked fs.su fs.disk b = false := by
  rw [marked, h.bitmap, Block.bit, Block.get_zero]
  simp

/-- In an empty file system no directory has an entry. -/
theorem Formatted.dirents_eq {i : ℕ} (hi : i < 200) (hdir : (fs.dinode i).type = tDir) :
    fs.dirents i = [] := by
  rw [Fs.dirents, h.bare hi (by rw [hdir]; decide)]
  rfl

/-- An empty file system is sound. -/
theorem Formatted.sound : Sound fs where
  wellFormed := ⟨h.init, h.layout, fun b => by simp [h.owners_eq_zero b]⟩
  dirs := by
    constructor
    · intro i hi hdir
      have hsize : (fs.dinode i).size = 0 := by rw [h.bare hi (by rw [hdir]; decide)]; rfl
      exact ⟨by rw [hsize], by rw [hsize]; exact Nat.zero_le _, fun b hb => by rw [hsize] at hb; omega⟩
    · intro i hi hdir de hde
      rw [h.dirents_eq hi hdir] at hde
      exact absurd hde List.not_mem_nil
  null := by rw [h.null]; decide
  root := by rw [h.root]

/-- An empty file system has no leaked block. -/
theorem Formatted.noLeak : NoLeak fs := fun b _ hmarked => by
  rw [h.not_marked b] at hmarked
  exact absurd hmarked (by decide)

/-- The first entry of the root directory takes one block. -/
theorem Formatted.need_root {x : ℕ} (hx : x ≠ rootInum) (type : ℕ) (src : Memory) :
    (fs.setDinode x { Dinode.zero with type := type }).need rootInum
      (writeRequest src 16 (fs.dinode rootInum).size) = [(0, 0)] := by
  rw [Fs.need, Fs.dinode_setDinode_of_ne hx.symm, h.root]
  rfl

/-- In an empty file system all blocks are free that the bitmap has whole bytes for. -/
theorem Formatted.length_freeBlocks : (freeBlocks fs.su fs.disk).length =
    8 * min (fs.su.nblockDat / 8) 512 := by
  rw [freeBlocks, List.length_map, FirstFit.free, List.filter_eq_self.mpr, List.length_range]
  intro i _
  rw [h.bitmap, Block.bit, Block.get_zero]
  simp

/-- In an empty file system every entry of the root directory that `getname` accepts can be created. -/
theorem Formatted.creates (hlow : 8 ≤ fs.su.nblockDat) (hdat : fs.su.nblockDat ≤ 4096)
    {path name parent : CString} (hname : getname (some path) = .ok (some (name, parent)))
    (hparent : parent.bytes = [slash]) {type : ℕ} (htype : type ≤ 3) :
    ∃ fs', fsMknod fs (some path) type = .ok (2, fs') := by
  have hsound := h.sound
  have hlookup := hsound.lookup_root hparent
  have hsize : (fs.dinode rootInum).size = 0 := by rw [h.root]; rfl
  have hfresh : fs.child rootInum name.bytes = nullInum := by
    rw [Fs.child, h.dirents_eq (by decide) hsound.root]
    split <;> rfl
  have hleast : ∀ j < 2, (fs.dinode j).type ≠ 0 := by
    intro j hj
    obtain rfl | rfl : j = nullInum ∨ j = rootInum := by
      simp only [nullInum, rootInum]
      omega
    · exact hsound.null
    · rw [hsound.root]
      decide
  apply fsMknod_creates hsound.wellFormed hdat hname hlookup (by decide) (by decide) hsound.root
    (hsound.dirs.dirs _ (by decide) hsound.root) hfresh (by decide) (by decide)
    (h.free 2 (by decide) (by decide) (by decide)) hleast htype
  · rw [hsize]
    decide
  · rw [h.need_root (by decide), h.length_freeBlocks, List.length_singleton]
    omega

end Formatted

end Hobby386
