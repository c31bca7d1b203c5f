import Hobby386.Fs.Mknod
import Hobby386.Fs.WriteBlocks
import Hobby386.Fs.WriteIdle

/-!
# When `fs_mknod` creates, and when it leaves the disk alone

A path that gets past the checks is created if and only if there is a free inode and the entry fits
into the parent directory. A creation that fails at the entry has already stored the inode, and it
clears it afterwards. So the disk is as before only if nothing of the directory was written and the
inode was clear to begin with.
-/

namespace Hobby386

open PointerForest

variable {fs fs' : Fs} {inum off sz : ℕ}

/-- A write stores all its bytes exactly when they lie in the addressable range and there are free
blocks for the null pointers on the paths to them. -/
theorem done_eq_iff {buf : Memory} {B : ℕ} (hpos : 0 < sz)
    (h : StoppedAt fs inum (writeRequest buf sz off) B fs') : (writeRequest buf sz off).done B = sz ↔
      off + sz ≤ maxBytes ∧ (fs.neededNulls inum off sz).length ≤ (freeBlocks fs.su fs.disk).length := by
  have hdone : (writeRequest buf sz off).done B = min sz (512 * B - off) := rfl
  constructor
  · intro hfull
    have hend : off + sz ≤ maxBytes := by
      have hB : B ≤ maxBlocks := by
        rcases h.outcome with ⟨rfl, -⟩ | ⟨hlt, -⟩
        · exact le_rfl
        · exact hlt.le
      simp only [maxBytes, maxBlocks] at hB ⊢
      omega
    exact ⟨hend, neededNulls_le hend h hfull⟩
  · rintro ⟨hend, hroom⟩
    rw [hdone]
    rcases h.outcome with ⟨rfl, -⟩ | ⟨-, height, hstop⟩
    · simp only [maxBytes, maxBlocks] at hend ⊢
      omega
    · obtain ⟨later, heq, hlater⟩ := need_eq_append hend fs inum buf
      rw [heq, List.getElem?_append_right hroom] at hstop
      have hbehind := hlater _ (List.mem_of_getElem? hstop) hpos
      dsimp only at hbehind
      omega

/-! ## The entry of a new inode -/

/-- The next entry of the directory `n` lies in the addressable range, and there are free blocks for
the null pointers on the paths to it. -/
def Fs.EntryFits (fs : Fs) (n : ℕ) : Prop :=
  (fs.dinode n).size + 16 ≤ maxBytes ∧
    (fs.neededNulls n (fs.dinode n).size 16).length ≤ (freeBlocks fs.su fs.disk).length

/-- An attempt to write the next entry of the directory `n` does nothing: the entry would start
behind the addressable range, or the block it starts in is missing and no block is free. -/
def Fs.EntryIdle (fs : Fs) (n : ℕ) : Prop :=
  maxBytes ≤ (fs.dinode n).size ∨
    freeBlocks fs.su fs.disk = [] ∧ fs.pathNulls n ((fs.dinode n).size / 512) ≠ []

instance (fs : Fs) (n : ℕ) : Decidable (fs.EntryFits n) := inferInstanceAs (Decidable (_ ∧ _))

instance (fs : Fs) (n : ℕ) : Decidable (fs.EntryIdle n) := inferInstanceAs (Decidable (_ ∨ _ ∧ _))

/-- The entry does nothing if and only if no byte of it can be stored and no block is taken for it. -/
theorem entryIdle_iff (n : ℕ) (src : Memory) : fs.EntryIdle n ↔
    ¬fs.StoresFirst n 16 (fs.dinode n).size ∧ (freeBlocks fs.su fs.disk = [] ∨
      fs.need n (writeRequest src 16 (fs.dinode n).size) = []) := by
  have hwidth : width 128 (fs.dinode n).forest = maxBlocks :=
    Dinode.width_forest (fs.fits_dinode n).length
  have hstores : fs.StoresFirst n 16 (fs.dinode n).size ↔ (fs.dinode n).size < maxBytes ∧
      (fs.pathNulls n ((fs.dinode n).size / 512)).length ≤ (freeBlocks fs.su fs.disk).length :=
    and_iff_right (by decide)
  rw [Fs.EntryIdle, hstores]
  rcases Nat.lt_or_ge (fs.dinode n).size maxBytes with hin | hout
  · have hrange : (fs.dinode n).size / 512 ≤ u32 ((fs.dinode n).size + 16) / 512 := by
      rw [u32_of_lt (by simp only [maxBytes, maxBlocks] at hin; omega)]
      omega
    obtain ⟨later, hneed, -⟩ :=
      pathNulls_prefix fs n (c := writeRequest src 16 (fs.dinode n).size) hrange
    have hfirst : (writeRequest src 16 (fs.dinode n).size).sblock = (fs.dinode n).size / 512 := rfl
    rw [hneed, hfirst, List.append_eq_nil_iff, ← List.length_pos_iff]
    simp only [← List.length_eq_zero_iff]
    omega
  · have hnone : fs.need n (writeRequest src 16 (fs.dinode n).size) = [] := by
      apply List.eq_nil_iff_forall_not_mem.mpr
      intro t ht
      have hend := (need_inside Block.ptrs_length ht).2
      have hover := (need_overlap ht).2
      have hstart : (writeRequest src 16 (fs.dinode n).size).sblock = (fs.dinode n).size / 512 := rfl
      rw [hstart] at hover
      simp only [maxBytes, maxBlocks] at hwidth hout
      omega
    simp only [hout, hnone, true_or, or_true, and_true, true_iff]
    omega

/-- An inode is stored in front of the data area and the bitmap. -/
theorem freeBlocks_newInode (hwf : WellFormed fs) {x : ℕ} (hx : x < 200) (new : Dinode) :
    freeBlocks (fs.setDinode x new).su (fs.setDinode x new).disk = freeBlocks fs.su fs.disk := by
  have hlt := hwf.layout.inodeBlock_lt hx
  rw [Fs.setDinode_su]
  exact freeBlocks_congr (Fs.setDinode_disk_of_ne (by omega))

section Entry

variable (hwf : WellFormed fs) {n x : ℕ} (hn : n < 200) (hdir : (fs.dinode n).type = tDir) (hx : x < 200)
  (hfree : (fs.dinode x).type = 0)

include hwf hn hdir hx hfree

/-- The new inode does not change the null pointers of the directory. -/
theorem need_newInode (new : Dinode) (s e : ℕ) :
    need Block.ptrs 128 (fs.setDinode x new).disk s e ((fs.setDinode x new).dinode n).forest 0 =
      need Block.ptrs 128 fs.disk s e (fs.dinode n).forest 0 := by
  rw [Fs.dinode_setDinode_of_ne (ne_of_free hdir hfree)]
  exact need_frame (setDinode_frame hwf hx hn (by rw [hdir]; decide)) 0

variable {type : ℕ} (htype : type ≤ 3) {name parent : CString} {r : ℕ × Fs}

include htype

/-- Where the write of the entry has stopped. -/
theorem entry_stopped {k : ℕ} {fs₂ : Fs}
    (hwrite : fsWrite (fs.setDinode x { Dinode.zero with type := type }) n (newDirent x name).bytes
      direntSize
      (fs.dinode n).size = .ok ((k : ℤ), fs₂)) :
    ∃ B, k = (writeRequest (newDirent x name).bytes 16 (fs.dinode n).size).done B ∧
      StoppedAt (fs.setDinode x { Dinode.zero with type := type }) n
        (writeRequest (newDirent x name).bytes 16 (fs.dinode n).size) B fs₂ := by
  obtain ⟨hwf₁, halloc₁, -⟩ := wellFormed_newInode hwf hn hdir hx hfree htype
  obtain ⟨B, hk, -, hstopped⟩ := fsWrite_stoppedAt hwf₁ halloc₁
    (show bits32 (direntSize : ℤ) ≤ 0xefffffff by decide) (fs.fits_dinode n).size hwrite rfl
  exact ⟨B, Int.ofNat_inj.mp hk, hstopped⟩

variable (h : linkInode (fs.setDinode x { Dinode.zero with type := type }) x n (fs.dinode n)
    name parent = .ok r)

include h

/-- The inode is linked if and only if the entry fits. -/
theorem linkInode_fits_iff (hpos : x ≠ nullInum) : r.1 ≠ nullInum ↔ fs.EntryFits n := by
  obtain ⟨k, fs₂, di, hwrite, -, -, -, -, hout⟩ := linkInode_steps hwf hn hdir hx hfree htype h
  obtain ⟨B, hk, hstopped⟩ := entry_stopped hwf hn hdir hx hfree htype hwrite
  have hfits := done_eq_iff (by decide) hstopped
  rw [freeBlocks_newInode hwf hx] at hfits
  have hnulls : (fs.setDinode x { Dinode.zero with type := type }).neededNulls n (fs.dinode n).size 16 =
      fs.neededNulls n (fs.dinode n).size 16 := by
    rw [Fs.neededNulls, Fs.neededNulls]
    exact congrArg (ite _ _) (need_newInode hwf hn hdir hx hfree _ _ _)
  rw [Fs.EntryFits, ← hnulls]
  refine Iff.trans ?_ hfits
  rcases hout with ⟨rfl, hx', -⟩ | ⟨hshort, hnull, -⟩
  · exact iff_of_true (by rw [hx']; exact hpos) hk.symm
  · exact iff_of_false (not_not_intro hnull) (fun hfull => hshort (hk.trans hfull))

/-- The disk is as before if and only if the entry does nothing and the inode was clear. -/
theorem linkInode_disk_iff (hused : 0 < type) :
    r.2.disk = fs.disk ↔ fs.EntryIdle n ∧ fs.dinode x = Dinode.zero := by
  have hne := ne_of_free hdir hfree
  obtain ⟨k, fs₂, di, hwrite, hwritten, hfit, hbare, hsame, hout⟩ :=
    linkInode_steps hwf hn hdir hx hfree htype h
  obtain ⟨B, hk, hstopped⟩ := entry_stopped hwf hn hdir hx hfree htype hwrite
  obtain ⟨hwf₁, halloc₁, -⟩ := wellFormed_newInode hwf hn hdir hx hfree htype
  have heffect := (linkEffect_of_steps hwf hn hdir hx hfree htype hwritten hfit hbare hout).of_sameStore
    (SameStore.refl fs) hsame
  have hstores : 0 < k ↔ fs.StoresFirst n 16 (fs.dinode n).size := by
    rw [hk]
    refine (done_pos_iff (by decide) hstopped).trans ?_
    rw [Fs.StoresFirst, Fs.StoresFirst, freeBlocks_newInode hwf hx, Fs.pathNulls, Fs.pathNulls]
    simp only [nptrsPerBlock, need_newInode hwf hn hdir hx hfree]
  have hneed := need_newInode hwf hn hdir hx hfree { Dinode.zero with type := type }
  rw [entryIdle_iff n (newDirent x name).bytes, ← hstores]
  constructor
  · intro hdisk
    have hdinode (i : ℕ) : r.2.dinode i = fs.dinode i := by
      rw [Fs.dinode, Fs.dinode, hdisk, heffect.su_eq]
    have hslot := hdinode x
    have hsize := congrArg Dinode.size heffect.parent
    have hblocks := heffect.free
    rw [hdisk, Fs.need, hneed] at hblocks
    rw [hdinode n] at hsize
    rcases heffect.outcome with ⟨-, -, hnew⟩ | ⟨-, -, hclear⟩
    · rw [hnew] at hslot
      have htypes := congrArg Dinode.type hslot
      rw [hfree] at htypes
      exact absurd htypes hused.ne'
    · refine ⟨⟨by dsimp only at hsize; omega, ?_⟩, hslot.symm.trans hclear⟩
      have hlen := congrArg List.length hblocks
      rw [List.length_drop] at hlen
      rw [← List.length_eq_zero_iff, ← List.length_eq_zero_iff, Fs.need]
      omega
  · rintro ⟨⟨hnothing, htaken⟩, hslot⟩
    obtain rfl : k = 0 := Nat.eq_zero_of_not_pos hnothing
    obtain ⟨-, -, rfl⟩ := hout.resolve_left (fun hlinked => absurd hlinked.1 (by decide))
    have hidle : fs₂ = fs.setDinode x { Dinode.zero with type := type } := by
      refine fsWrite_idle hwf₁ halloc₁ (show bits32 (direntSize : ℤ) ≤ 0xefffffff by decide) (by decide)
        (fs.fits_dinode n).size (by rw [Fs.dinode_setDinode_of_ne hne]) hwrite ?_
      rw [hwritten.free, Fs.need, hneed, freeBlocks_newInode hwf hx]
      rcases htaken with hfull | hnone
      · rw [hfull, List.drop_nil]
      · have hlen := congrArg List.length hnone
        rw [Fs.need, List.length_nil] at hlen
        rw [hlen, List.drop_zero]
    rw [hidle, Fs.setDinode_setDinode, ← hslot, Fs.setDinode_dinode] at hsame
    rw [hsame]

end Entry

/-! ## The whole call -/

/-- If a creation of the path gets as far as storing an inode, it does nothing else, and the inode
was clear. -/
def Fs.CreationIdle (fs : Fs) (path : CString) : Prop :=
  ∀ name parent n x, MknodPasses fs path name parent n → fs.FirstFree x →
    fs.EntryIdle n ∧ fs.dinode x = Dinode.zero

/-- The path gets past the checks, with `name` to be linked to the free inode `x` in the directory
`n`, and the entry fits. -/
structure Fs.CanCreate (fs : Fs) (path name parent : CString) (n x : ℕ) : Prop where
  passes : MknodPasses fs path name parent n
  first : fs.FirstFree x
  fits : fs.EntryFits n

section Call

variable (hwf : WellFormed fs) (hzero : (fs.dinode nullInum).type ≠ 0) {path : CString} {type : ℕ}

include hwf hzero

/-- A call for a path leaves the disk as it is if and only if the creation is idle. -/
theorem fsMknod_disk_iff (hdat : fs.su.nblockDat ≤ 4096) (hused : 0 < type) (htype : type ≤ 3) :
    (∀ r, fsMknod fs (some path) type = .ok r → r.2.disk = fs.disk) ↔ fs.CreationIdle path := by
  constructor
  · intro h name parent n x hpasses hfirst
    obtain ⟨r, hr⟩ := linkInode_returns hwf hdat hpasses.lt hpasses.dir hfirst.1 hfirst.2.1 htype
      name parent
    have hdisk := h r ((hpasses.fsMknod_eq hwf hzero hfirst htype).trans hr)
    exact (linkInode_disk_iff hwf hpasses.lt hpasses.dir hfirst.1 hfirst.2.1 htype hr hused).mp hdisk
  · intro hidle r h
    rcases fsMknod_stages hwf hzero h with
      ⟨-, hsame⟩ | ⟨p, name, parent, n, x, hp, -, hfirst, hpasses, hlink⟩
    · rw [hsame]
    · cases hp
      exact (linkInode_disk_iff hwf hpasses.lt hpasses.dir hfirst.1 hfirst.2.1 htype hlink hused).mpr
        (hidle name parent n x hpasses hfirst)

/-- A path that can be created is created. -/
theorem Fs.CanCreate.fsMknod {name parent : CString} {n x : ℕ} (h : fs.CanCreate path name parent n x)
    (hdat : fs.su.nblockDat ≤ 4096) (htype : type ≤ 3) : ∃ fs', fsMknod fs (some path) type =
    .ok (x, fs') := by
  obtain ⟨hpasses, hfirst, hfits⟩ := h
  obtain ⟨⟨m, fs'⟩, hr⟩ :=
    linkInode_returns hwf hdat hpasses.lt hpasses.dir hfirst.1 hfirst.2.1 htype name parent
  have hpos : x ≠ nullInum := by
    rintro rfl
    exact hzero hfirst.2.1
  have hm := (linkInode_fits_iff hwf hpasses.lt hpasses.dir hfirst.1 hfirst.2.1 htype hr hpos).mpr hfits
  obtain ⟨k, heffect⟩ := linkInode_effect hwf hpasses.lt hpasses.dir hfirst.1 hfirst.2.1 htype hr
  obtain rfl : m = x := by
    rcases heffect.outcome with ⟨-, hx, -⟩ | ⟨-, hnull, -⟩
    · exact hx
    · exact absurd hnull hm
  exact ⟨fs', (hpasses.fsMknod_eq hwf hzero hfirst htype).trans hr⟩

/-- What `fs_mknod` has created could be created, and this is its effect. -/
theorem fsMknod_created {m : ℕ} (h : fsMknod fs (some path) type = .ok (m, fs')) (hm : m ≠ nullInum) :
    ∃ name parent n, fs.CanCreate path name parent n m ∧ LinkEffect fs type n name m 16 m fs' ∧
      fs'.dinode m = { Dinode.zero with type := type, linkcnt := 1 } := by
  rcases fsMknod_stages hwf hzero h with
    ⟨hnull, -⟩ | ⟨p, name, parent, n, x, hp, htype, hfirst, hpasses, hlink⟩
  · exact absurd hnull hm
  · cases hp
    have hpos : x ≠ nullInum := by
      rintro rfl
      exact hzero hfirst.2.1
    have hfits := (linkInode_fits_iff hwf hpasses.lt hpasses.dir hfirst.1 hfirst.2.1 htype hlink
      hpos).mp hm
    obtain ⟨k, heffect⟩ := linkInode_effect hwf hpasses.lt hpasses.dir hfirst.1 hfirst.2.1 htype hlink
    dsimp only at heffect
    rcases heffect.outcome with ⟨rfl, rfl, hnew⟩ | ⟨-, hnull, -⟩
    · exact ⟨name, parent, n, ⟨hpasses, hfirst, hfits⟩, heffect, hnew⟩
    · exact absurd hnull hm

end Call

/-- The checks determine the directory and the name, and the inode is the first free one. -/
theorem Fs.CanCreate.unique {path name parent name' parent' : CString} {n x n' x' : ℕ}
    (h : fs.CanCreate path name parent n x) (h' : fs.CanCreate path name' parent' n' x') :
    name' = name ∧ parent' = parent ∧ n' = n ∧ x' = x := by
  have hname := h'.passes.getname.symm.trans h.passes.getname
  rw [Except.ok.injEq, Option.some.injEq, Prod.mk.injEq] at hname
  obtain ⟨rfl, rfl⟩ := hname
  have hlookup := h'.passes.lookup.symm.trans h.passes.lookup
  rw [Except.ok.injEq, Prod.mk.injEq] at hlookup
  refine ⟨rfl, rfl, hlookup.1, ?_⟩
  rcases Nat.lt_trichotomy x' x with hlt | heq | hgt
  · exact absurd h'.first.2.1 (h.first.2.2 x' hlt)
  · exact heq
  · exact absurd h.first.2.1 (h'.first.2.2 x hgt)

end Hobby386
