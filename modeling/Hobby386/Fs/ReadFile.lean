import Hobby386.Fs.ReadTree
import Hobby386.Fs.WriteFrame

/-!
# When a read returns the contents of the file

A read that starts in a mapped block returns the contents. A read that starts in a hole falls
behind by the distance from the first block of the missing subtree, which shows as soon as the
read leaves the hole.
-/

namespace Hobby386

open PointerForest

variable {fs : Fs} {inum off n : ℕ}

/-- Inside the addressable range a block is mapped unless it is missing. -/
theorem missing_eq_none_iff {k : ℕ} (hk : k < maxBlocks) :
    fs.missing inum k = none ↔ fs.fileBlock inum k ≠ 0 := by
  apply hole_eq_none_iff Block.ptrs_length (Nat.zero_le k)
  rwa [Dinode.width_forest (fs.fits_dinode inum).length, Nat.zero_add]

/-- A read that starts in a mapped block returns the contents. -/
theorem out_of_mapped {c : ReadRequest} (hoff : c.sblock < maxBlocks)
    (h : c.fs.fileBlock c.inum c.sblock ≠ 0) (j : ℕ) : c.out j = c.fs.content c.inum (c.off + j) := by
  have hstart : c.start = c.sblock := by
    rw [ReadRequest.start, (missing_eq_none_iff hoff).mpr h]
    rfl
  have hlead : ¬c.Lead (c.start + j / 512 + 1) := fun hl => h (hl _ (by omega) (by omega))
  rw [ReadRequest.out, if_neg hlead, hstart, ReadRequest.sblock, Nat.div_add_mod]

/-- The `n` bytes from offset `off` on agree with what a read has to offer for them: behind the
missing subtree `[s, e)` at the offset, with the bytes that lie as far back as the subtree starts
before the offset, or with zero while nothing behind the subtree is mapped. -/
def Fs.EvenBehindHole (fs : Fs) (inum off n : ℕ) : Prop :=
  ∀ s e, fs.missing inum (off / 512) = some (s, e) → ∀ x, 512 * e ≤ x → x < off + n →
    fs.content inum x =
      if ∀ k ≤ s + (x - off) / 512, e ≤ k → fs.fileBlock inum k = 0 then 0
      else fs.content inum (x - 512 * (off / 512 - s))

/-- The result of a read is the contents of the file exactly when nothing shifts behind the hole. -/
theorem out_eq_content_iff {c : ReadRequest} (hend : c.off + c.sz ≤ maxBytes) :
    (∀ j < c.sz, c.out j = c.fs.content c.inum (c.off + j)) ↔
      c.fs.EvenBehindHole c.inum c.off c.sz := by
  simp only [maxBytes] at hend
  have hsblock : c.sblock = c.off / 512 := rfl
  cases h : c.fs.missing c.inum c.sblock with
  | none =>
    refine iff_of_true (fun j hj => ?_) fun s e hse => ?_
    · have hoff : c.sblock < maxBlocks := by omega
      exact out_of_mapped hoff ((missing_eq_none_iff hoff).mp h) j
    · rw [h] at hse
      cases hse
  | some r =>
    obtain ⟨s, e⟩ := r
    obtain ⟨⟨hs, he⟩, hnull⟩ := hole_spec Block.ptrs_length (Nat.zero_le _) h
    dsimp only at hs he hnull
    have hstart : c.start = s := by
      rw [ReadRequest.start, h]
      rfl
    have hzero (x : ℕ) (hlow : 512 * s ≤ x) (hhigh : x < 512 * e) : c.fs.content c.inum x = 0 :=
      ReadRequest.content_of_null (hnull (x / 512) (by omega) (by omega)).2
    have hlead (b : ℕ) : c.Lead (b + 1) ↔ ∀ k ≤ b, e ≤ k → c.fs.fileBlock c.inum k = 0 := by
      refine ⟨fun hl k hk hek => hl k (by omega) (by omega), fun hl k hk hsk => ?_⟩
      rcases Nat.lt_or_ge k e with hlt | hge
      · exact (hnull k (by omega) hlt).2
      · exact hl k (by omega) hge
    have hout (j : ℕ) : c.out j = if ∀ k ≤ s + j / 512, e ≤ k → c.fs.fileBlock c.inum k = 0 then 0
        else c.fs.content c.inum (c.off + j - 512 * (c.sblock - s)) := by
      rw [ReadRequest.out, hstart, if_congr (hlead _) rfl rfl,
        show 512 * s + c.off % 512 + j = c.off + j - 512 * (c.sblock - s) by omega]
    constructor
    · intro hall s' e' hse x hx hx'
      rw [h] at hse
      cases hse
      have hj := hall (x - c.off) (by omega)
      rw [hout, show c.off + (x - c.off) = x by omega] at hj
      exact hj.symm
    · intro heven j hj
      rcases Nat.lt_or_ge (c.off + j) (512 * e) with hlt | hge
      · -- inside the hole everything is zero
        rw [hzero _ (by omega) hlt, hout]
        split
        · rfl
        · exact hzero _ (by omega) (by omega)
      · have hx := heven s e h (c.off + j) hge (by omega)
        rw [hx, hout, Nat.add_sub_cancel_left]

/-- `fs_read` returns the contents of the file exactly when nothing shifts behind the hole at the
offset. -/
theorem fsRead_content_iff (hwf : WellFormed fs) (halloc : fs.Allocated inum)
    (hsize : (fs.dinode inum).size ≤ maxBytes) (buf : Memory) {sz : ℤ} (hsz : 0 ≤ sz)
    (hint : sz ≤ 0x7fffffff) (off : ℕ) :
    ∃ (n : ℕ) (mem : Memory), fsRead fs inum buf sz off = .ok (n, mem, fs) ∧
      ((∀ j < n, mem j = fs.content inum (off + j)) ↔
        fs.EvenBehindHole inum off (min sz.toNat ((fs.dinode inum).size - off))) := by
  obtain ⟨sz, rfl⟩ := Int.eq_ofNat_of_zero_le hsz
  have hinum : inum < 200 := hwf.layout.ninodes ▸ halloc.1
  refine ⟨_, _, fsRead_spec hwf.init hwf.layout hinum buf (by omega) (.inl hsize), ?_⟩
  rw [Int.toNat_natCast]
  rcases Nat.lt_or_ge off (fs.dinode inum).size with hin | hout
  · have hend : off + readSize fs inum sz off ≤ maxBytes := by
      rw [readSize]
      omega
    refine Iff.trans ?_ (out_eq_content_iff (c := readRequest fs inum buf sz off) hend)
    refine forall₂_congr fun j hj => ?_
    rw [if_pos hj]
    rfl
  · have hzero : readSize fs inum sz off = 0 := by
      rw [readSize, Nat.sub_eq_zero_of_le hout, Nat.min_zero]
    rw [hzero, Nat.sub_eq_zero_of_le hout, Nat.min_zero]
    refine iff_of_true (fun j hj => absurd hj (Nat.not_lt_zero j)) fun s e hse x hx hx' => ?_
    have he := (hole_spec Block.ptrs_length (Nat.zero_le _) hse).1.2
    dsimp only at he
    omega

/-! ## A small file system -/

/-- The superblock of a partition of 65 blocks. -/
def smallSuper : Superblock where
  start := 0
  ninodes := 200
  nblockTot := 65
  nblockLog := 30
  nblockDat := 8
  nblockInode := 25
  slog := 1
  sinode := 31
  sbitmap := 56
  sdata := 57
  magic := fsMagic

/-- A file system whose only file is inode 2; `bits` is the first byte of the bitmap and `data` the
first data block. -/
def oneFile (di : Dinode) (bits : UInt8) (data : Block) : Fs where
  init := true
  su := smallSuper
  disk := fun n =>
    if n = 31 then Block.zero.setInode 2 di
    else if n = 56 then Block.zero.setByte 0 bits
    else if n = 57 then data
    else .zero
  printed := []

/-- The layout of the example. -/
theorem layout_smallSuper : smallSuper.Layout := by
  constructor <;> decide

/-- Block 57 is the data block of the example. -/
theorem inData_smallSuper : smallSuper.InData 57 := by
  constructor <;> decide

/-- The inode of the example. -/
theorem oneFile_dinode {di : Dinode} (hfit : di.Fits) (bits : UInt8) (data : Block) :
    (oneFile di bits data).dinode 2 = di := Block.inode_setInode (by decide) hfit

/-- All other inodes are free. -/
theorem oneFile_free {di : Dinode} (bits : UInt8) (data : Block) {i : ℕ} (hi : i < 200) (hne : i ≠ 2) :
    ((oneFile di bits data).dinode i).type = 0 := by
  have hzero (j : ℕ) : (Block.zero.inode j).type = 0 := by rw [Block.inode_zero]; rfl
  rw [Fs.dinode, show (oneFile di bits data).su.sinode + i / 8 = 31 + i / 8 from rfl]
  by_cases hblock : i / 8 = 0
  · rw [hblock, show (oneFile di bits data).disk (31 + 0) = Block.zero.setInode 2 di from rfl,
      Block.inode_setInode_of_ne (by omega) (by omega), hzero]
  · have hdisk : (oneFile di bits data).disk (31 + i / 8) = .zero := by
      simp only [oneFile]
      rw [if_neg (by omega), if_neg (by omega), if_neg (by omega)]
    rw [hdisk, hzero]

/-- The file is well formed when it owns its data block at most once, and only if it is marked. -/
theorem wellFormed_oneFile {di : Dinode} (hfit : di.Fits) {bits : UInt8} {data : Block}
    (hrefs : ∀ n, PointerForest.refs Block.ptrs (oneFile di bits data).disk di.forest n ≤
      if n = 57 ∧ bits = 1 then 1 else 0) : WellFormed (oneFile di bits data) where
  init := rfl
  layout := layout_smallSuper
  accounts := by
    intro n
    have howners : (oneFile di bits data).owners n ≤ if n = 57 ∧ bits = 1 then 1 else 0 := by
      rw [Fs.owners, Finset.sum_eq_single_of_mem 2 (by decide)]
      · rw [Fs.refs]
        split
        · exact Nat.zero_le _
        · rw [oneFile_dinode hfit]
          exact hrefs n
      · intro i hi hne
        exact Fs.refs_of_free (oneFile_free bits data (Finset.mem_range.mp hi) hne)
    split at howners
    · rename_i h
      obtain ⟨rfl, rfl⟩ := h
      refine ⟨howners, fun _ => ⟨inData_smallSuper, ?_⟩⟩
      change ((Block.zero.setByte 0 1).get (0 / 8)).toNat.testBit (0 % 8) = true
      rw [Block.setByte, Block.get_ofFn _ (by decide)]
      decide
    · exact ⟨by omega, fun hpos => by omega⟩

/-- The inode of a regular file of two blocks, the first one a hole. -/
def holeInode : Dinode where
  type := tReg
  major := 0
  minor := 0
  linkcnt := 1
  size := 1024
  ptrs := 0 :: 57 :: List.replicate 11 0

/-- The inode with a hole fits its fields. -/
theorem fits_holeInode : holeInode.Fits := by
  constructor <;> decide

/-- A file whose second block starts with the byte 7. -/
def holeThenData : Fs := oneFile holeInode 1 (Block.zero.setByte 0 7)

/-- The inode of the file with a hole. -/
theorem dinode_holeThenData : holeThenData.dinode 2 = holeInode := oneFile_dinode fits_holeInode _ _

/-- The file system with a hole is well formed. -/
theorem wellFormed_holeThenData : WellFormed holeThenData := by
  apply wellFormed_oneFile fits_holeInode
  intro n
  have hforest : holeInode.forest = [(0, 0), (0, 57), (0, 0), (0, 0), (0, 0), (0, 0), (0, 0),
    (0, 0), (0, 0), (0, 0), (1, 0), (1, 0), (2, 0)] := rfl
  rw [hforest]
  simp only [refs_cons, refs_nil, treeRefs]
  by_cases hn : n = 57
  · simp [hn]
  · simp [hn, Ne.symm hn]

/-- The file with a hole is in use. -/
theorem allocated_holeThenData : holeThenData.Allocated 2 := by
  refine ⟨by decide, ?_⟩
  rw [dinode_holeThenData]
  decide

/-- Read from the middle of the hole, the data of the second block is not where it belongs. -/
theorem not_evenBehindHole : ¬holeThenData.EvenBehindHole 2 100 500 := by
  intro heven
  have hmissing : holeThenData.missing 2 (100 / 512) = some (0, 1) := by
    rw [Fs.missing, dinode_holeThenData]
    rfl
  have hblock : holeThenData.fileBlock 2 (512 / 512) = 57 := by
    rw [Fs.fileBlock, dinode_holeThenData]
    rfl
  have hcontent : holeThenData.content 2 512 = 7 := by
    rw [Fs.content, hblock]
    rfl
  have h := heven 0 1 hmissing 512 (by decide) (by decide)
  rw [hcontent, if_pos (fun k hk hk' => by omega)] at h
  exact absurd h (by decide)

/-- A read of 500 bytes at offset 100 does not return the contents. -/
theorem fsRead_not_content :
    (WellFormed holeThenData ∧ holeThenData.Allocated 2 ∧ (holeThenData.dinode 2).size ≤ maxBytes) ∧
      ∃ mem : Memory, fsRead holeThenData 2 (fun _ => 0) 500 100 = .ok (500, mem, holeThenData) ∧
        ¬∀ j < 500, mem j = holeThenData.content 2 (100 + j) := by
  have hsize : (holeThenData.dinode 2).size = 1024 := by rw [dinode_holeThenData]; rfl
  have hn : readSize holeThenData 2 500 100 = 500 := by rw [readSize, hsize]; rfl
  have hrange : (holeThenData.dinode 2).size ≤ maxBytes ∨ 100 < maxBytes ∧ 100 + 500 ≤ maxBytes :=
    .inl (by rw [hsize]; decide)
  have hspec := fsRead_spec rfl layout_smallSuper (by decide) (fun _ => 0) (by decide) hrange
  rw [hn] at hspec
  refine ⟨⟨wellFormed_holeThenData, allocated_holeThenData, by rw [hsize]; decide⟩, _, hspec,
    fun hall => ?_⟩
  have hiff := out_eq_content_iff (c := readRequest holeThenData 2 (fun _ => 0) 500 100)
    (by simp only [readRequest, hn]; decide)
  simp only [readRequest, hn] at hiff
  refine not_evenBehindHole (hiff.mp fun j hj => ?_)
  have hj' := hall j hj
  rw [if_pos hj] at hj'
  rw [← hj']
  simp only [readRequest, hn]

/-- The characterisation at a read that covers the whole file. -/
theorem fsRead_content_iff_whole :
    ∃ (n : ℕ) (mem : Memory), fsRead holeThenData 2 (fun _ => 0) 1024 0 = .ok (n, mem, holeThenData) ∧
      ((∀ j < n, mem j = holeThenData.content 2 (0 + j)) ↔
        holeThenData.EvenBehindHole 2 0 (min (1024 : ℤ).toNat ((holeThenData.dinode 2).size - 0))) :=
  fsRead_content_iff wellFormed_holeThenData allocated_holeThenData
    (by rw [dinode_holeThenData]; decide) (fun _ => 0) (by decide) (by decide) 0

end Hobby386
