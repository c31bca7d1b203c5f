import Hobby386.Fs.ReadFile
import Hobby386.Fs.Returns

/-!
# When a write changes the requested bytes only

A block that a write takes for data keeps what was stored in it, apart from the requested bytes.
The bytes next to the request change whenever such a block held something else than zeros.
-/

namespace Hobby386

open PointerForest

variable {fs fs' : Fs} {inum n : ℕ} {c : WriteRequest}

/-- The free blocks a write takes for data are zero outside the request, as far as they hold bytes
of the file in front of offset `lim`. -/
def Fs.CleanFor (fs : Fs) (inum : ℕ) (c : WriteRequest) (lim : ℕ) : Prop :=
  ∀ k q, ((0, k), q) ∈ (fs.need inum c).zip (freeBlocks fs.su fs.disk) → ∀ r < 512,
    512 * k + r < lim → ¬c.Covers (512 * k + r) → (fs.disk q).get r = 0

/-- The requested bytes are in place. -/
theorem FileWritten.content_of_covered (h : FileWritten fs inum c n fs') {x : ℕ} (hlow : c.off ≤ x)
    (hhigh : x < c.off + n) : fs'.content inum x = c.src (x - c.off) := by
  rw [h.content x, if_pos ⟨hlow, hhigh⟩]

/-- The other bytes stay as they are exactly when the blocks taken for data are clean. -/
theorem FileWritten.content_eq_iff (h : FileWritten fs inum c n fs') (hwf : WellFormed fs) (lim : ℕ) :
    (∀ x < lim, ¬(c.off ≤ x ∧ x < c.off + n) → fs'.content inum x = fs.content inum x) ↔
      fs.CleanFor inum c lim := by
  constructor
  · intro hsame k q hzip r hr hlim hout
    obtain ⟨hdiv, hmod⟩ : (512 * k + r) / 512 = k ∧ (512 * k + r) % 512 = r := by omega
    obtain ⟨hneed, hfree⟩ := List.of_mem_zip hzip
    have hold : fs.fileBlock inum k = 0 := lookup_of_need Block.ptrs_length hneed
    have hk : k < maxBlocks := by
      have hrange := (need_range (by decide) Block.ptrs_length hneed).2
      rwa [Nat.zero_add, Dinode.width_forest (fs.fits_dinode inum).length] at hrange
    have hq : q ≠ 0 := by
      have hlow := (of_mem_freeBlocks hfree).1.1
      have hsdata := hwf.layout.sdata
      omega
    have hnew := (h.mapped k q hk hold hq).mpr hzip
    have hsz := h.le_sz
    have hnot : ¬(c.off ≤ 512 * k + r ∧ 512 * k + r < c.off + n) := fun hin =>
      hout ⟨hin.1, by omega⟩
    have hbyte := hsame _ hlim hnot
    rw [h.content, if_neg hnot, hdiv, hmod, hnew, if_pos ⟨hold, hq⟩] at hbyte
    rw [hbyte, Fs.content, blockSize, hdiv, if_pos hold]
  · intro hclean x hx hout
    rw [h.content x, if_neg hout]
    split
    · rename_i hnew
      obtain ⟨hold, hnew⟩ := hnew
      have hold0 : fs.content inum x = 0 := by rw [Fs.content, if_pos hold]
      have hzip := (h.mapped (x / 512) _ (fs'.lt_of_fileBlock hnew) hold hnew).mp rfl
      rw [hold0]
      refine hclean _ _ hzip (x % 512) (Nat.mod_lt _ (by decide)) (by rwa [Nat.div_add_mod])
        fun hcov => ?_
      rw [Nat.div_add_mod] at hcov
      exact hout ⟨hcov.1, h.reached x hold hnew hcov⟩
    · rfl

/-- `fs_write` changes exactly the bytes it transfers, in front of any offset `lim`, if and only if
the blocks it takes for data are clean there. -/
theorem fsWrite_content_iff (hwf : WellFormed fs) (hdat : fs.su.nblockDat ≤ 4096)
    (halloc : fs.Allocated inum) (buf : Memory) {sz : ℤ} (hsz : 0 ≤ sz) (hint : sz ≤ 0x7fffffff)
    {off : ℕ} (hoff : off < 4294967296) (lim : ℕ) :
    ∃ (n : ℕ) (fs' : Fs), fsWrite fs inum buf sz off = .ok (n, fs') ∧
      (((∀ j < n, fs'.content inum (off + j) = buf j) ∧
        ∀ x < lim, ¬(off ≤ x ∧ x < off + n) → fs'.content inum x = fs.content inum x) ↔
      fs.CleanFor inum (writeRequest buf sz.toNat off) lim) := by
  obtain ⟨sz, rfl⟩ := Int.eq_ofNat_of_zero_le hsz
  have hbits : bits32 (sz : ℤ) = sz := bits32_natCast (by omega)
  obtain ⟨⟨ret, fs'⟩, hrun⟩ := fsWrite_returns hdat inum buf sz off
  obtain ⟨n, rfl, -, hwritten⟩ := fsWrite_spec hwf halloc (by omega) hoff hrun
  rw [hbits] at hwritten
  refine ⟨n, fs', hrun, ?_⟩
  rw [Int.toNat_natCast, ← hwritten.content_eq_iff hwf lim]
  refine ⟨fun h => h.2, fun h => ⟨fun j hj => ?_, h⟩⟩
  rw [hwritten.content_of_covered (Nat.le_add_right off j) (Nat.add_lt_add_left hj off)]
  exact congrArg buf (Nat.add_sub_cancel_left off j)

/-- The inode of a regular file of one block that is a hole. -/
def emptyBlockInode : Dinode where
  type := tReg
  major := 0
  minor := 0
  linkcnt := 1
  size := 512
  ptrs := List.replicate 13 0

/-- The inode of the example fits its fields. -/
theorem fits_emptyBlockInode : emptyBlockInode.Fits := by
  constructor <;> decide

/-- A file system whose first free block still holds a 7 in its second byte. -/
def staleFree : Fs := oneFile emptyBlockInode 0 (Block.zero.setByte 1 7)

/-- The inode of the example. -/
theorem dinode_staleFree : staleFree.dinode 2 = emptyBlockInode :=
  oneFile_dinode fits_emptyBlockInode _ _

/-- The forest of the example has no pointers. -/
theorem forest_emptyBlockInode :
    emptyBlockInode.forest = [(0, 0), (0, 0), (0, 0), (0, 0), (0, 0), (0, 0), (0, 0), (0, 0),
    (0, 0), (0, 0), (1, 0), (1, 0), (2, 0)] := rfl

/-- The file system of the example is well formed. -/
theorem wellFormed_staleFree : WellFormed staleFree := by
  apply wellFormed_oneFile fits_emptyBlockInode
  intro n
  rw [forest_emptyBlockInode]
  simp

/-- The file of the example is in use. -/
theorem allocated_staleFree : staleFree.Allocated 2 := by
  refine ⟨by decide, ?_⟩
  rw [dinode_staleFree]
  decide

/-- A write of one byte at offset 0 takes the stale block. -/
theorem not_cleanFor : ¬staleFree.CleanFor 2 (writeRequest (fun _ => 1) 1 0) 512 := by
  intro hclean
  have hneed : staleFree.need 2 (writeRequest (fun _ => 1) 1 0) = [(0, 0)] := by
    rw [Fs.need, dinode_staleFree, forest_emptyBlockInode]
    rfl
  have hfree : freeBlocks staleFree.su staleFree.disk =
      57 :: (freeBlocks staleFree.su staleFree.disk).tail := by
    rfl
  have h := hclean 0 57 (by rw [hneed, hfree]; simp) 1 (by decide) (by decide) (by decide)
  exact absurd h (by decide)

/-- Writing one byte into the hole changes another byte in front of the end of the file. -/
theorem fsWrite_changes_more :
    (WellFormed staleFree ∧ 0 < staleFree.su.nblockDat ∧ staleFree.su.nblockDat ≤ 4096 ∧
      staleFree.Allocated 2 ∧ (staleFree.dinode 2).type = tReg ∧ (staleFree.dinode 2).size = 512) ∧
    ∃ (n : ℕ) (fs' : Fs), fsWrite staleFree 2 (fun _ => 1) 1 0 = .ok (n, fs') ∧
      ∃ x < 512, ¬(0 ≤ x ∧ x < 0 + n) ∧ fs'.content 2 x ≠ staleFree.content 2 x := by
  refine ⟨⟨wellFormed_staleFree, by decide, by decide, allocated_staleFree, ?_, ?_⟩, ?_⟩
  · rw [dinode_staleFree]
    rfl
  · rw [dinode_staleFree]
    rfl
  · obtain ⟨⟨ret, fs'⟩, hrun⟩ :=
      fsWrite_returns (show staleFree.su.nblockDat ≤ 4096 by decide) 2 (fun _ => 1) 1 0
    obtain ⟨n, rfl, -, hwritten⟩ := fsWrite_spec wellFormed_staleFree allocated_staleFree
      (show bits32 1 ≤ 0xefffffff by decide) (by decide) hrun
    refine ⟨n, fs', hrun, ?_⟩
    by_contra hnone
    refine not_cleanFor ((hwritten.content_eq_iff wellFormed_staleFree 512).mp fun x hx hout => ?_)
    by_contra hne
    exact hnone ⟨x, hx, hout, hne⟩

/-- The characterisation at the write that takes the stale block. -/
theorem fsWrite_content_iff_staleFree :
    ∃ (n : ℕ) (fs' : Fs), fsWrite staleFree 2 (fun _ => 1) 1 0 = .ok (n, fs') ∧
      (((∀ j < n, fs'.content 2 (0 + j) = 1) ∧
        ∀ x < 512, ¬(0 ≤ x ∧ x < 0 + n) → fs'.content 2 x = staleFree.content 2 x) ↔
      staleFree.CleanFor 2 (writeRequest (fun _ => 1) (1 : ℤ).toNat 0) 512) :=
  fsWrite_content_iff wellFormed_staleFree (by decide) allocated_staleFree (fun _ => 1) (by decide)
    (by decide) (by decide) 512

end Hobby386
