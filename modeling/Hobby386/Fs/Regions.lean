import Hobby386.Lib.Regions
import Hobby386.Fs.Format

/-!
# The regions of a new file system

`fs_format` divides the partition into superblock, log, inodes, bitmap and data, and takes the
number of data blocks to be what is left behind the bitmap. It never looks at the number of
sectors: a partition that does not hold the fixed regions gets a data area of almost 2^32 blocks,
and one with more than 4096 blocks behind the bitmap gets more data blocks than its one bitmap
block has bits. The return value is 0 in every case.
-/

namespace Hobby386

open Regions

/-- The regions a superblock describes. -/
def Superblock.regions (su : Superblock) : List Region :=
  [⟨su.start, 1⟩, ⟨su.slog, su.nblockLog⟩, ⟨su.sinode, su.nblockInode⟩, ⟨su.sbitmap, 1⟩,
    ⟨su.sdata, su.nblockDat⟩]

/-- The allocator reads the bitmap block inside its bounds, whatever it finds there. -/
def Superblock.BitmapFits (su : Superblock) : Prop :=
  ∀ fs : Fs, fs.su = su → bitmapAlloc fs ≠ .error .outOfBounds

/-- The superblock describes five regions in order, adjacent, disjoint and inside the partition. Its
data area is what the partition has behind the bitmap, and the bitmap block has a bit for every
block of it. -/
structure SoundLayout (p : Partition) (su : Superblock) : Prop where
  adjacent : Adjacent su.regions
  ordered : su.regions.Pairwise Region.Before
  disjoint : su.regions.Pairwise fun r s => ∀ n, r.Contains n → ¬s.Contains n
  inside : ∀ r ∈ su.regions, ∀ n, r.Contains n → p.Contains n
  data : su.sbitmap + 1 + su.nblockDat = p.startlba + p.nsectors
  bits : su.nblockDat ≤ 8 * blockSize
  bitmap : su.BitmapFits

variable {fs : Fs} {p : Partition} {su : Superblock}

/-! ## The bytes of the bitmap -/

/-- The byte loop leaves the block only over bytes that are all 0xff. -/
theorem scanBytes_outOfBounds {b : Block} (hfull : ∀ i < 512, b.get i = 0xff) {i n : ℕ} (hi : i ≤ 512)
    (hn : 512 < i + n) : scanBytes b i n = .error .outOfBounds := by
  induction n generalizing i with
  | zero => omega
  | succ n ih =>
    rw [scanBytes]
    split
    · rename_i hlt
      rw [if_pos (hfull i hlt)]
      exact ih hlt (by omega)
    · rfl

/-- The allocator stays inside the bitmap block if and only if the block has a byte for every eight data
blocks. -/
theorem bitmapFits_iff : su.BitmapFits ↔ su.nblockDat / 8 ≤ blockSize := by
  constructor
  · intro hfits
    by_contra hlong
    let full : Fs := ⟨true, su, fun _ => .ofFn fun _ => 0xff, []⟩
    refine hfits full rfl ?_
    have hscan : scanBytes (full.diskRead su.sbitmap) 0 (su.nblockDat / 8) = .error .outOfBounds :=
      scanBytes_outOfBounds (fun i hi => Block.get_ofFn _ hi) (by decide)
        (by simp only [blockSize] at hlong; omega)
    rw [bitmapAlloc, show full.su = su from rfl, hscan, error_bind]
  · rintro hshort fs rfl hfault
    obtain ⟨r, hscan⟩ := scanBytes_returns (fs.diskRead fs.su.sbitmap) (i := 0)
      (n := fs.su.nblockDat / 8) (by simpa using hshort)
    rw [bitmapAlloc, hscan, ok_bind] at hfault
    cases r with
    | none => cases hfault
    | some i =>
      dsimp only at hfault
      split at hfault
      · cases hfault
      · split at hfault <;> cases hfault

/-! ## The superblock that is written -/

/-- The two reservations leave the superblock on the disk as it was written. -/
theorem allocInodeFrom_disk (fs : Fs) (type i n : ℕ) :
    (allocInodeFrom fs type i n).2.su = fs.su ∧
      ∀ m, (∀ k, i ≤ k → k < i + n → m ≠ u32 (k + fs.su.sinode)) →
        (allocInodeFrom fs type i n).2.disk m = fs.disk m := by
  induction n generalizing i with
  | zero => exact ⟨rfl, fun _ _ => rfl⟩
  | succ n ih =>
    rw [allocInodeFrom]
    split
    · refine ⟨rfl, fun m hm => ?_⟩
      exact Fs.diskWrite_disk_of_ne (hm i le_rfl (by omega))
    · obtain ⟨hsu, hdisk⟩ := ih (i + 1)
      exact ⟨hsu, fun m hm => hdisk m fun k hk hk' => hm k (by omega) (by omega)⟩

/-- The inode blocks of a new file system are none of them its first block, wherever they are. -/
theorem startlba_ne_inodeBlock {k : ℕ} (hk : k < 25) : p.startlba ≠ u32 (k + (newSuper p).sinode) := by
  simp only [newSuper, u32, nblocksLog]
  omega

section Written

variable (hend : p.startlba + p.nsectors < 4294967296)

include hend

/-- After formatting, the first block of the partition holds the superblock that was prepared. -/
theorem fsFormat_superblock (fs : Fs) :
    ((fsFormat fs p).disk p.startlba).su = newSuper p ∧ (fsFormat fs p).su = newSuper p := by
  have hreserve (fs₁ : Fs) (hsu : fs₁.su = newSuper p) : (allocInode fs₁ tDir).2.su = newSuper p ∧
      (allocInode fs₁ tDir).2.disk p.startlba = fs₁.disk p.startlba := by
    have hcount : fs₁.su.nblockInode = 25 := by rw [hsu]; rfl
    rw [allocInode, if_neg (by decide), hcount]
    obtain ⟨hkeep, hdisk⟩ := allocInodeFrom_disk fs₁ tDir 0 25
    refine ⟨hkeep.trans hsu, hdisk _ fun k _ hk => ?_⟩
    rw [hsu]
    exact startlba_ne_inodeBlock (by omega)
  obtain ⟨hsu₁, hdisk₁⟩ := hreserve (blankFormat fs p) rfl
  obtain ⟨hsu₂, hdisk₂⟩ := hreserve _ hsu₁
  rw [fsFormat_eq]
  refine ⟨?_, hsu₂⟩
  rw [hdisk₂, hdisk₁, blankFormat_disk_start]
  apply Superblock.su_toBlock
  have hwrap (n : ℕ) : n % 4294967296 < 4294967296 := Nat.mod_lt _ (by decide)
  simp only [Superblock.words, newSuper, List.mem_cons, List.not_mem_nil, or_false,
    forall_eq_or_imp, forall_eq, u32, sub32, hwrap]
  simp
  omega

/-- The regions of a partition that holds the fixed ones tile it. -/
theorem tiles_newSuper (hlow : 57 ≤ p.nsectors) :
    (newSuper p).nblockDat = p.nsectors - 57 ∧ (newSuper p).sbitmap = p.startlba + 56 ∧
      Tiles p.startlba (newSuper p).regions (p.startlba + p.nsectors) := by
  simp only [newSuper, Superblock.regions, Tiles, Region.stop, u32, sub32]
  simp
  omega

/-- The layout of a new file system is sound exactly on the partitions that hold the fixed regions
and not more than 4096 blocks behind them. -/
theorem soundLayout_newSuper_iff :
    SoundLayout p (newSuper p) ↔ 57 ≤ p.nsectors ∧ p.nsectors ≤ 57 + 8 * blockSize := by
  constructor
  · intro hsound
    have hbits := hsound.bits
    have hdat : (newSuper p).nblockDat = (p.nsectors + (4294967296 - 57)) % 4294967296 := rfl
    simp only [hdat, blockSize] at hbits ⊢
    omega
  · rintro ⟨hlow, hhigh⟩
    obtain ⟨hdat, hsbitmap, htiles⟩ := tiles_newSuper hend hlow
    have hbits : (newSuper p).nblockDat ≤ 8 * blockSize := by
      rw [hdat]
      omega
    refine ⟨htiles.adjacent, htiles.pairwise, ?_, fun r hr n hn => ?_, by omega, hbits,
      bitmapFits_iff.mpr ?_⟩
    · exact htiles.pairwise.imp fun hbefore n => hbefore.not_contains
    · obtain ⟨hfirst, hstop⟩ := htiles.inside hr
      exact ⟨hfirst.trans hn.1, hn.2.trans_le hstop⟩
    · simp only [blockSize] at hbits ⊢
      omega

end Written

/-- `fs_format` writes a sound layout exactly for the partitions that hold the fixed regions and not more
than 4096 blocks behind them. -/
theorem fsFormat_sound_iff (fs : Fs) (hend : p.startlba + p.nsectors < 4294967296) :
    SoundLayout p ((fsFormat fs p).disk p.startlba).su ↔ 57 ≤ p.nsectors ∧
      p.nsectors ≤ 57 + 8 * blockSize := by
  rw [(fsFormat_superblock hend fs).1]
  exact soundLayout_newSuper_iff hend

/-- A partition of ten sectors and one of five thousand are formatted all the same. The first gets
4294967249 data blocks, the second more than the bitmap describes. -/
theorem fsFormat_not_sound :
    (¬SoundLayout ⟨0, 10⟩ ((fsFormat (Fs.boot fun _ => .zero) ⟨0, 10⟩).disk 0).su ∧
      ((fsFormat (Fs.boot fun _ => .zero) ⟨0, 10⟩).disk 0).su.nblockDat = 4294967249) ∧
    ¬SoundLayout ⟨0, 5000⟩ ((fsFormat (Fs.boot fun _ => .zero) ⟨0, 5000⟩).disk 0).su ∧
      ¬((fsFormat (Fs.boot fun _ => .zero) ⟨0, 5000⟩).disk 0).su.BitmapFits := by
  have htiny := (fsFormat_superblock (p := ⟨0, 10⟩) (by decide) (Fs.boot fun _ => .zero)).1
  have hlarge := (fsFormat_superblock (p := ⟨0, 5000⟩) (by decide) (Fs.boot fun _ => .zero)).1
  dsimp only at htiny hlarge
  rw [htiny, hlarge, soundLayout_newSuper_iff (by decide), soundLayout_newSuper_iff (by decide),
    bitmapFits_iff]
  decide

/-- The characterisation for a partition of 65 sectors. -/
theorem fsFormat_sound_iff_small :
    SoundLayout ⟨2048, 65⟩ ((fsFormat (Fs.boot fun _ => .zero) ⟨2048, 65⟩).disk 2048).su ↔
      57 ≤ 65 ∧ 65 ≤ 57 + 8 * blockSize :=
  fsFormat_sound_iff (p := ⟨2048, 65⟩) (Fs.boot fun _ => .zero) (by decide)

end Hobby386
