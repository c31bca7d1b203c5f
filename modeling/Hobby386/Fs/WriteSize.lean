import Hobby386.Fs.WriteContent
import Hobby386.Fs.WriteNodes

/-!
# The size of a file after a write

`inode_rw` sets the size to the larger of the old size and the end of the bytes it has
transferred, and does so also when it has transferred none: a write behind the end of the file
that stores nothing still moves the end of the file to its offset.
-/

namespace Hobby386

open PointerForest

/-- The size of a file changes by the bytes a write has stored: a result `n > 0` moves the end of
the file to `off + n` if it lies behind it, and any other result leaves the size. -/
def SizeByStored (fs : Fs) (inum off : ℕ) (r : ℤ × Fs) : Prop :=
  (0 < r.1 → ((r.2.dinode inum).size : ℤ) = max ((fs.dinode inum).size : ℤ) (off + r.1)) ∧
  (r.1 ≤ 0 → (r.2.dinode inum).size = (fs.dinode inum).size)

/-- A write of `sz` bytes at `off` can store its first byte: there is one, at an offset the inode can
address, and there are free blocks for the null pointers on the path to it. -/
def Fs.StoresFirst (fs : Fs) (inum sz off : ℕ) : Prop :=
  0 < sz ∧ off < maxBytes ∧ (fs.pathNulls inum (off / 512)).length ≤ (freeBlocks fs.su fs.disk).length

instance (fs : Fs) (inum sz off : ℕ) : Decidable (fs.StoresFirst inum sz off) :=
  inferInstanceAs (Decidable (_ ∧ _ ∧ _))

variable {fs fs' : Fs} {inum : ℕ}

/-- The null pointers on the path to the first block of a write come first among those it has to fill. -/
theorem pathNulls_prefix (fs : Fs) (inum : ℕ) {c : WriteRequest} (hrange : c.sblock ≤ c.eblock) :
    ∃ later, fs.need inum c = fs.pathNulls inum c.sblock ++ later ∧ ∀ t ∈ later, c.sblock < t.2 :=
  need_prefix (by decide) Block.ptrs_length hrange

/-- A write stores something exactly when it can store its first byte. -/
theorem done_pos_iff {buf : Memory} {sz off B : ℕ} (hsz : sz ≤ 0xefffffff)
    (h : StoppedAt fs inum (writeRequest buf sz off) B fs') :
    0 < (writeRequest buf sz off).done B ↔ fs.StoresFirst inum sz off := by
  have hdone : (writeRequest buf sz off).done B = min sz (512 * B - off) := rfl
  rw [hdone, Fs.StoresFirst]
  rcases Nat.lt_or_ge off maxBytes with hin | hout
  · have hrange : off / 512 ≤ u32 (off + sz) / 512 := by
      rw [u32_of_lt (by simp only [maxBytes, maxBlocks] at hin; omega)]
      omega
    obtain ⟨later, hneed, hlater⟩ := pathNulls_prefix fs inum (c := writeRequest buf sz off) hrange
    have hfirst : (writeRequest buf sz off).sblock = off / 512 := rfl
    rw [hfirst] at hneed hlater
    simp only [maxBytes, maxBlocks] at hin ⊢
    rcases h.outcome with ⟨rfl, hle⟩ | ⟨hlt, height, hstop⟩
    · rw [hneed, List.length_append] at hle
      simp only [maxBlocks]
      omega
    · rw [hneed] at hstop
      rcases Nat.lt_or_ge (freeBlocks fs.su fs.disk).length (fs.pathNulls inum (off / 512)).length with
        hshort | hlong
      · -- the write stops on the path to its first block
        rw [List.getElem?_append_left hshort] at hstop
        have hmem : (height, B) ∈ fs.pathNulls inum (off / 512) := List.mem_of_getElem? hstop
        have hle := (need_overlap hmem).1
        dsimp only at hle
        omega
      · rw [List.getElem?_append_right hlong] at hstop
        have hbehind := hlater _ (List.mem_of_getElem? hstop)
        dsimp only at hbehind
        omega
  · simp only [maxBytes, maxBlocks] at hout ⊢
    have hB : B ≤ maxBlocks := by
      rcases h.outcome with ⟨rfl, -⟩ | ⟨hlt, -⟩
      · exact le_rfl
      · exact hlt.le
    simp only [maxBlocks] at hB
    omega

/-- A write changes the size of its file by the bytes it stores if and only if it starts in front of
the end of the file or can store its first byte. -/
theorem fsWrite_size_iff (hwf : WellFormed fs) (hdat : fs.su.nblockDat ≤ 4096)
    (halloc : fs.Allocated inum) (buf : Memory) {sz : ℤ} (hsz : 0 ≤ sz) (hint : sz ≤ 0x7fffffff)
    {off : ℕ} (hoff : off < 4294967296) :
    ∃ r, fsWrite fs inum buf sz off = .ok r ∧ (SizeByStored fs inum off r ↔
      off ≤ (fs.dinode inum).size ∨ fs.StoresFirst inum sz.toNat off) := by
  obtain ⟨sz, rfl⟩ := Int.eq_ofNat_of_zero_le hsz
  have hbits : bits32 (sz : ℤ) = sz := bits32_natCast (by omega)
  obtain ⟨⟨ret, fs'⟩, hrun⟩ := fsWrite_returns hdat inum buf sz off
  refine ⟨_, hrun, ?_⟩
  obtain ⟨B, rfl, hwritten, hstopped⟩ := fsWrite_stoppedAt hwf halloc (by omega) hoff hrun rfl
  rw [hbits] at hwritten hstopped
  have hsize : (fs'.dinode inum).size =
      max (fs.dinode inum).size (off + (writeRequest buf sz off).done B) := by
    rw [hwritten.inode]
    rfl
  rw [Int.toNat_natCast, ← done_pos_iff (by omega) hstopped, SizeByStored, hbits]
  dsimp only
  rw [hsize]
  omega

/-- A write of nothing behind the end of a file of 512 bytes returns 0 and makes it a file of 1000
bytes. -/
theorem fsWrite_zero_moves_end :
    (WellFormed staleFree ∧ 0 < staleFree.su.nblockDat ∧ staleFree.su.nblockDat ≤ 4096 ∧
      staleFree.Allocated 2 ∧ (staleFree.dinode 2).type = tReg ∧ (staleFree.dinode 2).size = 512) ∧
    ∃ fs', fsWrite staleFree 2 (fun _ => 1) 0 1000 = .ok (0, fs') ∧ (fs'.dinode 2).size = 1000 ∧
      ¬SizeByStored staleFree 2 1000 (0, fs') := by
  have hold : (staleFree.dinode 2).size = 512 := by
    rw [dinode_staleFree]
    rfl
  refine ⟨⟨wellFormed_staleFree, by decide, by decide, allocated_staleFree, ?_, hold⟩, ?_⟩
  · rw [dinode_staleFree]
    rfl
  · obtain ⟨⟨ret, fs'⟩, hrun⟩ :=
      fsWrite_returns (show staleFree.su.nblockDat ≤ 4096 by decide) 2 (fun _ => 1) 0 1000
    obtain ⟨n, rfl, -, hwritten⟩ := fsWrite_spec wellFormed_staleFree allocated_staleFree
      (show bits32 0 ≤ 0xefffffff by decide) (by decide) hrun
    have hzero : (n : ℕ) = 0 := by
      have hdone {B : ℕ} : (writeRequest (fun _ => 1) (bits32 0) 1000).done B = 0 := Nat.zero_min _
      rcases hwritten.outcome with ⟨hn, -⟩ | ⟨⟨B, -, hn⟩, -⟩ <;> rw [hn, hdone]
    subst hzero
    have hsize : (fs'.dinode 2).size = 1000 := by
      rw [hwritten.inode, hold]
      rfl
    refine ⟨fs', hrun, hsize, fun hstored => ?_⟩
    have hkept : (fs'.dinode 2).size = (staleFree.dinode 2).size := hstored.2 le_rfl
    rw [hsize, hold] at hkept
    exact absurd hkept (by decide)

/-- The characterisation at the write of one byte at the end of that file. -/
theorem fsWrite_size_iff_staleFree :
    ∃ r, fsWrite staleFree 2 (fun _ => 1) 1 512 = .ok r ∧ (SizeByStored staleFree 2 512 r ↔
      512 ≤ (staleFree.dinode 2).size ∨ staleFree.StoresFirst 2 (1 : ℤ).toNat 512) :=
  fsWrite_size_iff wellFormed_staleFree (by decide) allocated_staleFree (fun _ => 1) (by decide)
    (by decide) (by decide)

end Hobby386
