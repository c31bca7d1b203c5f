import Hobby386.Fs.WriteTree
import Mathlib.Algebra.BigOperators.Group.Finset.Basic
import Mathlib.Algebra.Order.BigOperators.Group.Finset

/-!
# The effect of `fs_write`

A write to an allocated inode of a well-formed file system, described by what it does to the
table of inodes, to the ownership of blocks and to the contents of the file. The block range
of the request and the free list determine which blocks are allocated and for what.
-/

namespace Hobby386

open PointerForest

/-- How often block `n` is pointed to from inode `i`, zero for a free inode. -/
def Fs.refs (fs : Fs) (i n : ℕ) : ℕ :=
  if (fs.dinode i).type = 0 then 0 else PointerForest.refs Block.ptrs fs.disk (fs.dinode i).forest n

/-- How often block `n` is pointed to from the whole file system. -/
def Fs.owners (fs : Fs) (n : ℕ) : ℕ := ∑ i ∈ Finset.range 200, fs.refs i n

/-- A mounted file system in which every pointer leads to a data block of its own that is marked in
the bitmap. Nothing is said about free blocks. -/
structure WellFormed (fs : Fs) : Prop where
  init : fs.init = true
  layout : fs.su.Layout
  accounts : Accounts fs.su fs.disk fs.owners

/-- The request of `fs_write(inum, buf, sz, off)`. -/
def writeRequest (buf : Memory) (sz off : ℕ) : WriteRequest :=
  ⟨off, sz, off / 512, u32 (off + sz) / 512, buf⟩

/-- Every size that `inode_rw` accepts makes a valid request. -/
theorem valid_writeRequest {buf : Memory} {sz off : ℕ} (hsz : sz ≤ 0xefffffff) :
    (writeRequest buf sz off).Valid where
  sblock := rfl
  eblock := by
    intro h
    simp only [writeRequest, maxBlocks] at h ⊢
    rw [u32_of_lt (by omega)]

/-- The null pointers a write has to fill, in the order in which it does. -/
def Fs.need (fs : Fs) (inum : ℕ) (c : WriteRequest) : List (ℕ × ℕ) :=
  PointerForest.need Block.ptrs 128 fs.disk c.sblock c.eblock (fs.dinode inum).forest 0

/-- The blocks a write takes. -/
def Fs.taken (fs : Fs) (inum : ℕ) (c : WriteRequest) : List ℕ :=
  (freeBlocks fs.su fs.disk).take (fs.need inum c).length

/-- A write needs no blocks where the file is mapped. -/
theorem Fs.need_eq_nil (fs : Fs) {inum : ℕ} {c : WriteRequest} (hrange : c.sblock ≤ c.eblock)
    (h : ∀ k, c.sblock ≤ k → k ≤ c.eblock → fs.fileBlock inum k ≠ 0) : fs.need inum c = [] :=
  PointerForest.need_eq_nil (by decide) Block.ptrs_length hrange fun k hs he _ _ => h k hs he

/-- The effect of a write of which `n` bytes were transferred. -/
structure FileWritten (fs : Fs) (inum : ℕ) (c : WriteRequest) (n : ℕ) (fs' : Fs) : Prop where
  same : fs' = { fs with disk := fs'.disk }
  inode : fs'.dinode inum = { fs.dinode inum with
    ptrs := (fs'.dinode inum).ptrs
    size := max (fs.dinode inum).size (c.off + n) }
  others : ∀ j < 200, j ≠ inum → fs'.dinode j = fs.dinode j
  outcome : n = c.done maxBlocks ∧ (fs.need inum c).length ≤ (freeBlocks fs.su fs.disk).length ∨
    (∃ B < maxBlocks, n = c.done B) ∧ (freeBlocks fs.su fs.disk).length < (fs.need inum c).length
  free : freeBlocks fs.su fs'.disk = (freeBlocks fs.su fs.disk).drop (fs.need inum c).length
  marked : ∀ m, fs.su.sdata ≤ m →
    marked fs.su fs'.disk m = (marked fs.su fs.disk m || decide (m ∈ fs.taken inum c))
  owned : ∀ m, fs'.refs inum m = fs.refs inum m + (fs.taken inum c).count m
  frame : ∀ m, m ≠ fs.su.sbitmap → m ≠ fs.su.sinode + inum / 8 → fs'.refs inum m = 0 →
    fs'.disk m = fs.disk m
  kept : ∀ k, fs.fileBlock inum k ≠ 0 → fs'.fileBlock inum k = fs.fileBlock inum k
  mapped : ∀ k q, k < maxBlocks → fs.fileBlock inum k = 0 → q ≠ 0 →
    (fs'.fileBlock inum k = q ↔ ((0, k), q) ∈ (fs.need inum c).zip (freeBlocks fs.su fs.disk))
  covered : ∀ x, c.off ≤ x → x < c.off + n → fs'.fileBlock inum (x / 512) ≠ 0
  reached : ∀ x, fs.fileBlock inum (x / 512) = 0 → fs'.fileBlock inum (x / 512) ≠ 0 → c.Covers x →
    x < c.off + n
  content : ∀ x, fs'.content inum x =
    if c.off ≤ x ∧ x < c.off + n then c.src (x - c.off)
    else if fs.fileBlock inum (x / 512) = 0 ∧ fs'.fileBlock inum (x / 512) ≠ 0 then
      (fs.disk (fs'.fileBlock inum (x / 512))).get (x % 512)
    else fs.content inum x

variable {fs fs' : Fs} {inum : ℕ}

/-- The owners of a block are the inode written to and the others. -/
theorem Fs.owners_split (h : fs.Allocated inum) (hlayout : fs.su.Layout) (n : ℕ) :
    fs.owners n = PointerForest.refs Block.ptrs fs.disk (fs.dinode inum).forest n +
      ∑ i ∈ (Finset.range 200).erase inum, fs.refs i n := by
  have hmem : inum ∈ Finset.range 200 := Finset.mem_range.mpr (hlayout.ninodes ▸ h.1)
  have hrefs : fs.refs inum n = PointerForest.refs Block.ptrs fs.disk (fs.dinode inum).forest n := by
    rw [Fs.refs, if_neg h.2]
  rw [Fs.owners, ← Finset.add_sum_erase _ _ hmem, hrefs]

/-- Ownership is sound for the inode written to, with the other inodes as the other owners. -/
theorem WellFormed.accounts_split (hwf : WellFormed fs) (h : fs.Allocated inum) :
    Accounts fs.su fs.disk fun n =>
      PointerForest.refs Block.ptrs fs.disk (fs.dinode inum).forest n +
        ∑ i ∈ (Finset.range 200).erase inum, fs.refs i n := by
  intro n
  beta_reduce
  rw [← Fs.owners_split h hwf.layout n]
  exact hwf.accounts n

/-- Blocks outside the data area have no owner in a well-formed file system. -/
theorem WellFormed.owners_eq_zero (h : WellFormed fs) {n : ℕ} (hn : n < fs.su.sdata) :
    fs.owners n = 0 := by
  by_contra hne
  have hdata := ((h.accounts n).2 (Nat.pos_of_ne_zero hne)).1
  exact absurd hdata.1 (Nat.not_le.mpr hn)

/-- `fs_write` to an allocated inode, in terms of the loop over the inode's pointers. -/
theorem fsWrite_loop (hinit : fs.init = true) (hlayout : fs.su.Layout) (hi : inum < 200) {buf : Memory}
    {sz : ℤ} {off : ℕ} (hsz : bits32 sz ≤ 0xefffffff) {r : ℤ × Fs}
    (h : fsWrite fs inum buf sz off = .ok r) :
    ∃ t, rwPtrs (fun i => recursiveRw bitmapAlloc (getIlevel i)) 0 (fs.dinode inum).ptrs
        ⟨0, off / 512, u32 (off + bits32 sz) / 512, off, 0, bits32 sz, true, buf⟩ fs = .ok t ∧
      ∃ di, di = { fs.dinode inum with
          ptrs := t.ptrs
          size := max (fs.dinode inum).size (u32 (off + sub32 (bits32 sz) t.sa.left)) } ∧
        match writeInode t.fs inum di with
        | (none, _) => False
        | (some _, fs') => r = (int32 (sub32 (bits32 sz) t.sa.left), fs') := by
  rw [fsWrite, bind_eq_ok] at h
  obtain ⟨⟨ret, mem, fs'⟩, h, hr⟩ := h
  cases hr
  simp only [inodeRw, hinit, Bool.not_true, Bool.false_eq_true, if_false, if_neg (Nat.not_lt.mpr hsz),
    readInode_eq hinit hlayout hi, Bool.true_eq_false, false_and, if_true, bind_eq_ok] at h
  obtain ⟨t, hloop, h⟩ := h
  refine ⟨t, hloop, _, rfl, ?_⟩
  have hmax (a b : ℕ) : (if b < a then a else b) = max a b := by
    split <;> omega
  rw [hmax] at h
  split at h
  · cases h
  · rename_i hwrite
    cases h
    rw [hwrite]

/-- Inode blocks lie in front of the bitmap and the data area. -/
theorem Superblock.Layout.inodeBlock_lt {su : Superblock} (h : su.Layout) {i : ℕ} (hi : i < 200) :
    su.sinode + i / 8 < su.sbitmap ∧ su.sbitmap < su.sdata := by
  have hsinode := h.sinode
  have hsbitmap := h.sbitmap
  have hsdata := h.sdata
  omega

/-- Storing an inode makes its forest the file's, when none of the forest's blocks holds the inode. -/
theorem setDinode_stored {di : Dinode} (hfit : di.Fits) (hused : di.type ≠ 0)
    (hown : ∀ m, 0 < PointerForest.refs Block.ptrs fs.disk di.forest m → m ≠ fs.su.sinode + inum / 8) :
    (∀ m, (fs.setDinode inum di).refs inum m = PointerForest.refs Block.ptrs fs.disk di.forest m) ∧
      ∀ k, (fs.setDinode inum di).fileBlock inum k = lookup Block.ptrs 128 fs.disk di.forest 0 k := by
  have hstored : (fs.setDinode inum di).dinode inum = di := Fs.dinode_setDinode hfit
  have hkeep (m : ℕ) (hm : 0 < PointerForest.refs Block.ptrs fs.disk di.forest m) :
      (fs.setDinode inum di).disk m = fs.disk m := Fs.setDinode_disk_of_ne (hown m hm)
  constructor
  · intro m
    rw [Fs.refs, hstored, if_neg hused, refs_frame hkeep]
  · intro k
    rw [Fs.fileBlock, hstored, lookup_frame hkeep]

section Finish

variable {c : WriteRequest} {ret : ℤ} {ps : List ℕ} {sa : ShareArg} {fs₁ : Fs}

/-- The traversal of an inode never goes past the last addressable block. -/
theorem WriteResult.boff_le {F F' : Forest} (hwidth : width 128 F = maxBlocks)
    (hres : WriteResult c F 0 fs ret F' sa fs₁) : sa.boff ≤ maxBlocks := by
  by_cases hret : ret = 0
  · rw [(hres.finished hret).1, hwidth, Nat.zero_add]
  · have h := (hres.stopped hret).2.1
    rw [hwidth] at h
    omega

/-- The contents of the file after a write, byte by byte. -/
theorem WriteResult.content {F F' : Forest} (hvalid : c.Valid) (hwidth : width 128 F = maxBlocks)
    (hheights : width 128 F' = maxBlocks)
    (hres : WriteResult c F 0 fs ret F' sa fs₁) (x : ℕ) :
    (if lookup Block.ptrs 128 fs₁.disk F' 0 (x / 512) = 0 then 0
      else (fs₁.disk (lookup Block.ptrs 128 fs₁.disk F' 0 (x / 512))).get (x % 512)) =
    if c.off ≤ x ∧ x < c.off + c.done sa.boff then c.src (x - c.off)
    else if lookup Block.ptrs 128 fs.disk F 0 (x / 512) = 0 ∧
        lookup Block.ptrs 128 fs₁.disk F' 0 (x / 512) ≠ 0 then
      (fs.disk (lookup Block.ptrs 128 fs₁.disk F' 0 (x / 512))).get (x % 512)
    else if lookup Block.ptrs 128 fs.disk F 0 (x / 512) = 0 then 0
      else (fs.disk (lookup Block.ptrs 128 fs.disk F 0 (x / 512))).get (x % 512) := by
  have hboff := hres.boff_le hwidth
  have hx : 512 * (x / 512) + x % 512 = x := Nat.div_add_mod x 512
  have hr : x % 512 < 512 := Nat.mod_lt _ (by decide)
  have hkept := hres.kept (x / 512) (Nat.zero_le _)
  rcases Nat.lt_or_ge (x / 512) sa.boff with hlt | hge
  · -- the traversal has passed the block of `x`
    have hdone : c.off ≤ x ∧ x < c.off + c.done sa.boff ↔ c.Covers x := by
      simp only [WriteRequest.Covers, WriteRequest.done]
      omega
    simp only [hdone]
    by_cases hnew : lookup Block.ptrs 128 fs₁.disk F' 0 (x / 512) = 0
    · have hold : lookup Block.ptrs 128 fs.disk F 0 (x / 512) = 0 := by
        by_contra hne
        exact hne ((hkept hne).symm.trans hnew)
      have hncov : ¬c.Covers x := by
        intro hcov
        have hs := hvalid.sblock
        simp only [WriteRequest.Covers] at hcov
        have he := hvalid.eblock (by omega)
        exact hres.covered (x / 512) (Nat.zero_le _) hlt (by omega) (by omega) hnew
      simp only [hnew, hold, if_true, ne_eq, not_true, and_false, if_false, if_neg hncov]
    · have hbefore := hres.before (x / 512) (Nat.zero_le _) hlt hnew (x % 512) hr
      rw [hx] at hbefore
      rw [if_neg hnew, hbefore]
      by_cases hcov : c.Covers x
      · rw [if_pos hcov, if_pos hcov]
      · rw [if_neg hcov, if_neg hcov]
        by_cases hold : lookup Block.ptrs 128 fs.disk F 0 (x / 512) = 0
        · rw [if_pos ⟨hold, hnew⟩]
        · rw [if_neg (fun h => hold h.1), if_neg hold, hkept hold]
  · -- the traversal has not reached the block of `x`
    have hnot : ¬(c.off ≤ x ∧ x < c.off + c.done sa.boff) := by
      simp only [WriteRequest.done]
      omega
    rw [if_neg hnot]
    rcases Nat.lt_or_ge (x / 512) maxBlocks with hin | hout
    · obtain ⟨heq, hsame⟩ := hres.after (x / 512) hge (by rw [hwidth]; omega)
      simp only [heq, ne_eq, and_not_self, if_false]
      by_cases hold : lookup Block.ptrs 128 fs.disk F 0 (x / 512) = 0
      · rw [if_pos hold, if_pos hold]
      · rw [if_neg hold, if_neg hold, hsame hold]
    · have hold : lookup Block.ptrs 128 fs.disk F 0 (x / 512) = 0 :=
        lookup_eq_zero (by rw [hwidth]; omega)
      have hnew : lookup Block.ptrs 128 fs₁.disk F' 0 (x / 512) = 0 :=
        lookup_eq_zero (by rw [hheights]; omega)
      simp only [hold, hnew, if_true, ne_eq, not_true, and_false, if_false]

/-- The inode of a file fits with the pointers and the size after a write. -/
theorem WriteResult.fits_inode (hoff : c.off < 4294967296)
    (hres : WriteResult c (fs.dinode inum).forest 0 fs ret (forestFrom getIlevel 0 ps) sa fs₁) :
    { fs.dinode inum with ptrs := ps, size := max (fs.dinode inum).size (c.off + c.done
      sa.boff) : Dinode }.Fits := by
  have hfits := fs.fits_dinode inum
  have hboff := hres.boff_le (Dinode.width_forest hfits.length)
  have hlen : ps.length = 13 := by
    have h := congrArg List.length hres.heights
    simpa [Dinode.forest, forestFrom_length, hfits.length] using h
  refine hfits.resize ?_ hlen ?_
  · have hsize := hfits.size
    have hdone : c.off + c.done sa.boff ≤ max c.off maxBytes := by
      simp only [WriteRequest.done, maxBytes, maxBlocks] at hboff ⊢
      omega
    simp only [maxBytes, maxBlocks] at hdone ⊢
    omega
  · intro p hp
    obtain ⟨i, hi⟩ := mem_forestFrom getIlevel 0 hp
    refine hres.small ?_ _ hi
    intro t ht
    exact hfits.ptrs _ (snd_mem_of_mem_forestFrom ht)

/-- Storing the inode completes a write. -/
theorem FileWritten.of_loop (hwf : WellFormed fs) (halloc : fs.Allocated inum) (hvalid : c.Valid)
    (hoff : c.off < 4294967296)
    (hres : WriteResult c (fs.dinode inum).forest 0 fs ret (forestFrom getIlevel 0 ps) sa fs₁)
    {di : Dinode} (hdi : di = { fs.dinode inum with
      ptrs := ps
      size := max (fs.dinode inum).size (c.off + c.done sa.boff) }) :
    di.Fits ∧ FileWritten fs inum c (c.done sa.boff) (fs₁.setDinode inum di) := by
  have hlayout := hwf.layout
  have hinum : inum < 200 := hlayout.ninodes ▸ halloc.1
  have hacc := hwf.accounts_split halloc
  have hfits := fs.fits_dinode inum
  have hsu : fs₁.su = fs.su := by rw [hres.same]
  have hwidth : width 128 (fs.dinode inum).forest = maxBlocks := Dinode.width_forest hfits.length
  have hwidth' : width 128 (forestFrom getIlevel 0 ps) = maxBlocks := by
    rw [width_congr 128 hres.heights, hwidth]
  have hboff := hres.boff_le hwidth
  have hfit : di.Fits := hdi ▸ hres.fits_inode hoff
  have hblock {i : ℕ} (hi : i < 200) : fs₁.disk (fs.su.sinode + i / 8) =
      fs.disk (fs.su.sinode + i / 8) := by
    have hlt := hlayout.inodeBlock_lt hi
    apply hres.frame _ (by omega)
    by_contra hne
    have hdata := (hres.inData hacc (Nat.pos_of_ne_zero hne)).1
    omega
  have hdinode {i : ℕ} (hi : i < 200) : fs₁.dinode i = fs.dinode i :=
    Fs.dinode_congr hsu (hblock hi)
  have hstored : (fs₁.setDinode inum di).dinode inum = di := Fs.dinode_setDinode hfit
  have hforest : di.forest = forestFrom getIlevel 0 ps := by rw [hdi]; rfl
  have hother {m : ℕ} (hm : m ≠ fs.su.sinode + inum / 8) :
      (fs₁.setDinode inum di).disk m = fs₁.disk m :=
    Fs.setDinode_disk_of_ne (by rwa [hsu])
  have hapart (m : ℕ) (hm : 0 < PointerForest.refs Block.ptrs fs₁.disk di.forest m) :
      m ≠ fs₁.su.sinode + inum / 8 := by
    rw [hforest] at hm
    have hlt := hlayout.inodeBlock_lt hinum
    have hdata := (hres.inData hacc hm).1
    rw [hsu]
    omega
  obtain ⟨hrefs, hmap⟩ := setDinode_stored hfit (by rw [hdi]; exact halloc.2) hapart
  rw [hforest] at hapart hrefs hmap
  have hrefs₀ (m : ℕ) : fs.refs inum m =
      PointerForest.refs Block.ptrs fs.disk (fs.dinode inum).forest m := by
    rw [Fs.refs, if_neg halloc.2]
  have hbits : (fs₁.setDinode inum di).disk fs.su.sbitmap = fs₁.disk fs.su.sbitmap := by
    have hlt := hlayout.inodeBlock_lt hinum
    exact hother (by omega)
  refine ⟨hfit, ?_⟩
  constructor
  case same =>
    rw [hres.same]
    rfl
  case inode => rw [hstored, hdi]
  case others =>
    intro j hj hne
    rw [Fs.dinode_setDinode_of_ne hne, hdinode hj]
  case outcome =>
    by_cases hret : ret = 0
    · obtain ⟨hb, hle⟩ := hres.finished hret
      rw [hwidth, Nat.zero_add] at hb
      exact .inl ⟨by rw [hb], hle⟩
    · obtain ⟨-, hb, hlt⟩ := hres.stopped hret
      rw [hwidth, Nat.zero_add] at hb
      exact .inr ⟨⟨_, hb, rfl⟩, hlt⟩
  case free =>
    rw [freeBlocks_congr hbits, hres.free]
    rfl
  case marked =>
    intro m hm
    rw [marked_congr hbits, hres.marked m hm]
    rfl
  case owned =>
    intro m
    rw [hrefs, hrefs₀, hres.owned m]
    rfl
  case frame =>
    intro m hm hblock hzero
    rw [hrefs] at hzero
    rw [hother hblock, hres.frame m hm hzero]
  case kept =>
    intro k hne
    rw [hmap]
    exact hres.kept k (Nat.zero_le k) hne
  case mapped =>
    intro k q hk hzero hq
    rw [hmap]
    exact hres.mapped k q (Nat.zero_le k) (by rwa [hwidth, Nat.zero_add]) hzero hq
  case covered =>
    intro x hlow hhigh
    rw [hmap]
    have hs := hvalid.sblock
    simp only [WriteRequest.done] at hhigh
    have he := hvalid.eblock (by omega)
    exact hres.covered (x / 512) (Nat.zero_le _) (by omega) (by omega) (by omega)
  case reached =>
    intro x hold hnew hcov
    rw [hmap] at hnew
    have hin : x / 512 < maxBlocks := by
      by_contra hge
      exact hnew (lookup_eq_zero (by rw [hwidth']; omega))
    have hlt : x / 512 < sa.boff := by
      by_contra hge
      have heq := (hres.after (x / 512) (by omega) (by rw [hwidth]; omega)).1
      exact hnew (heq.trans hold)
    simp only [WriteRequest.Covers, WriteRequest.done] at hcov ⊢
    omega
  case content =>
    intro x
    have hx := hres.content hvalid hwidth hwidth' x
    rw [Fs.content, hmap]
    by_cases hnull : lookup Block.ptrs 128 fs₁.disk (forestFrom getIlevel 0 ps) 0 (x / 512) = 0
    · rw [if_pos hnull] at hx ⊢
      exact hx
    · rw [if_neg hnull] at hx ⊢
      rw [hother (hsu ▸ hapart _ (refs_lookup hnull)), hx]
      rfl

end Finish

/-- A write of an accepted size to an allocated inode is the traversal of its pointers followed by
storing the inode, and returns the number of bytes transferred. -/
theorem fsWrite_stored (hwf : WellFormed fs) (halloc : fs.Allocated inum) {buf : Memory} {sz : ℤ}
    {off : ℕ} (hsz : bits32 sz ≤ 0xefffffff) (hoff : off < 4294967296) {r : ℤ × Fs}
    (h : fsWrite fs inum buf sz off = .ok r) {c : WriteRequest}
    (hc : c = writeRequest buf (bits32 sz) off) :
    ∃ t, rwPtrs (fun i => recursiveRw bitmapAlloc (getIlevel i)) 0 (fs.dinode inum).ptrs
        ⟨0, off / 512, u32 (off + bits32 sz) / 512, off, 0, bits32 sz, true, buf⟩ fs = .ok t ∧
      WritePos c ⟨0, off / 512, u32 (off + bits32 sz) / 512, off, 0, bits32 sz, true, buf⟩ ∧
      WriteResult c (fs.dinode inum).forest 0 fs t.ret (forestFrom getIlevel 0 t.ptrs) t.sa t.fs ∧
      c.done t.sa.boff ≤ maxBytes ∧
      ∃ di : Dinode, di.Fits ∧ di.type ≠ 0 ∧ di.ptrs = t.ptrs ∧
        r = (((c.done t.sa.boff : ℕ) : ℤ), t.fs.setDinode inum di) ∧
        FileWritten fs inum c (c.done t.sa.boff) (t.fs.setDinode inum di) := by
  have hlayout := hwf.layout
  have hinum : inum < 200 := hlayout.ninodes ▸ halloc.1
  obtain ⟨t, hloop, di, hdi, hstore⟩ := fsWrite_loop hwf.init hlayout hinum hsz h
  have hvalid : c.Valid := by rw [hc]; exact valid_writeRequest hsz
  have hstart : WritePos c ⟨0, off / 512, u32 (off + bits32 sz) / 512, off, 0, bits32 sz, true,
      buf⟩ := by
    constructor <;> simp [hc, writeRequest, WriteRequest.done]
  have hwidth : width 128 (fs.dinode inum).forest = maxBlocks :=
    Dinode.width_forest (fs.fits_dinode inum).length
  have hacc := hwf.accounts_split halloc
  have hrw (i : ℕ) : Writes c (getIlevel i) (recursiveRw bitmapAlloc (getIlevel i)) :=
    writes_recursiveRw hvalid (getIlevel_le i)
  have hroom : 0 + width 128 (forestFrom getIlevel 0 (fs.dinode inum).ptrs) ≤ maxBlocks := by
    rw [← Dinode.forest, hwidth, Nat.zero_add]
  have hres := WriteResult.loop hrw hlayout hstart hroom hacc hloop
  have hoff' : c.off = off := by rw [hc]; rfl
  have hsz' : c.sz = bits32 sz := by rw [hc]; rfl
  have hboff := hres.boff_le hwidth
  have hdone : c.done t.sa.boff ≤ maxBytes := by
    simp only [WriteRequest.done, maxBytes, maxBlocks] at hboff ⊢
    omega
  have hconsumed : sub32 (bits32 sz) t.sa.left = c.done t.sa.boff := by
    have hle : c.done t.sa.boff ≤ bits32 sz := hsz' ▸ Nat.min_le_left _ _
    have hleft : t.sa.left = bits32 sz - c.done t.sa.boff := hsz' ▸ hres.pos.left
    rw [sub32, hleft, show bits32 sz + (4294967296 - (bits32 sz - c.done t.sa.boff)) =
      c.done t.sa.boff + 4294967296 by omega, u32, Nat.add_mod_right]
    exact Nat.mod_eq_of_lt (by omega)
  have hsize : u32 (off + sub32 (bits32 sz) t.sa.left) = off + c.done t.sa.boff := by
    rw [hconsumed]
    refine u32_of_lt ?_
    simp only [WriteRequest.done, hoff', maxBlocks] at hboff ⊢
    omega
  rw [hsize, ← hoff'] at hdi
  rw [hconsumed] at hstore
  obtain ⟨hfit, hwritten⟩ := FileWritten.of_loop hwf halloc hvalid (hoff' ▸ hoff) hres hdi
  have hsu : t.fs.su = fs.su := by rw [hres.same]
  have hinit : t.fs.init = true := by rw [hres.same]; exact hwf.init
  rw [writeInode_eq hinit (hsu ▸ hlayout) hinum hfit,
    int32_of_lt (by simp only [maxBytes, maxBlocks] at hdone; omega)] at hstore
  exact ⟨t, hloop, hstart, hres, hdone, di, hfit, by rw [hdi]; exact halloc.2, by rw [hdi], hstore,
    hwritten⟩

/-- A write of an accepted size to an allocated inode transfers some number of bytes and returns it, all
of them in front of the last addressable block when the traversal goes through. -/
theorem fsWrite_result (hwf : WellFormed fs) (halloc : fs.Allocated inum) {buf : Memory} {sz : ℤ}
    {off : ℕ} (hsz : bits32 sz ≤ 0xefffffff) (hoff : off < 4294967296) {r : ℤ × Fs}
    (h : fsWrite fs inum buf sz off = .ok r) :
    ∃ t, rwPtrs (fun i => recursiveRw bitmapAlloc (getIlevel i)) 0 (fs.dinode inum).ptrs
        ⟨0, off / 512, u32 (off + bits32 sz) / 512, off, 0, bits32 sz, true, buf⟩ fs = .ok t ∧
      ∃ n : ℕ, r.1 = n ∧ n ≤ maxBytes ∧
        (t.ret = 0 → n = (writeRequest buf (bits32 sz) off).done maxBlocks) ∧
        FileWritten fs inum (writeRequest buf (bits32 sz) off) n r.2 := by
  obtain ⟨t, hloop, -, hres, hdone, di, -, -, -, rfl, hwritten⟩ :=
    fsWrite_stored hwf halloc hsz hoff h rfl
  refine ⟨t, hloop, _, rfl, hdone, fun hret => ?_, hwritten⟩
  rw [(hres.finished hret).1, Dinode.width_forest (fs.fits_dinode inum).length, Nat.zero_add]

/-- The result of a write and its effect. -/
theorem fsWrite_spec (hwf : WellFormed fs) (halloc : fs.Allocated inum) {buf : Memory} {sz : ℤ}
    {off : ℕ} (hsz : bits32 sz ≤ 0xefffffff) (hoff : off < 4294967296) {r : ℤ × Fs}
    (h : fsWrite fs inum buf sz off = .ok r) :
    ∃ n : ℕ, r.1 = n ∧ n ≤ maxBytes ∧ FileWritten fs inum (writeRequest buf (bits32 sz) off) n r.2 := by
  obtain ⟨-, -, n, hn, hle, -, hwritten⟩ := fsWrite_result hwf halloc hsz hoff h
  exact ⟨n, hn, hle, hwritten⟩

end Hobby386
