import Hobby386.Fs.Mknod

/-!
# Formatting and mounting

`fs_init`, `fs_format`, and the order in which `mkfs` calls them. The blocks to be zeroed are
taken from the superblock that a failed `fs_init` leaves in memory, whatever it was read from.
-/

namespace Hobby386

open PointerForest

/-- `fs_init` with its three functions given: `true` for the return value 0. -/
def fsInit (fs : Fs) (p : Partition) : Bool × Fs :=
  let b := fs.diskRead p.startlba
  if b.su.magic ≠ fsMagic then (false, { fs with su := b.su })
  else (true, { fs with su := b.su, init := true })

/-- The zeroing loop of `fs_format` over the next `n` blocks from index `i` on. -/
def zeroBlocks (start : ℕ) : (i n : ℕ) → Fs → Fs
  | _, 0, fs => fs
  | i, n + 1, fs => zeroBlocks start (i + 1) n (fs.diskWrite (u32 (start + i)) .zero)

/-- The superblock that `fs_format` prepares. -/
def newSuper (p : Partition) : Superblock :=
  let slog := u32 (p.startlba + 1)
  let sinode := u32 (slog + nblocksLog)
  let sbitmap := u32 (sinode + ninodesFixed / ninodesPerBlock)
  { start := p.startlba
    ninodes := ninodesFixed
    nblockTot := p.nsectors
    nblockLog := nblocksLog
    nblockDat := sub32 p.nsectors (nblocksLog + ninodesFixed / ninodesPerBlock + 1 + 1)
    nblockInode := ninodesFixed / ninodesPerBlock
    slog := slog
    sinode := sinode
    sbitmap := sbitmap
    sdata := u32 (sbitmap + 1)
    magic := fsMagic }

/-- `fs_format`. -/
def fsFormat (fs : Fs) (p : Partition) : Fs :=
  let fs := zeroBlocks fs.su.start 0 fs.su.nblockTot fs
  let fs := fs.diskWrite p.startlba (newSuper p).toBlock
  let fs := { fs with su := newSuper p }
  let fs := (allocInode fs tDir).2
  (allocInode fs tDir).2

/-- The start of `main` in `mkfs`: mount the partition, formatting it first if that fails. -/
def mkfsMount (fs : Fs) (p : Partition) : Except Fault Fs :=
  let r := fsInit fs p
  if r.1 then .ok r.2
  else
    let r := fsInit (fsFormat r.2 p) p
    if r.1 then .ok r.2 else .error .panic

/-- The static struct `fs` before the first call. -/
def Fs.boot (disk : Disk) : Fs := ⟨false, ⟨0, 0, 0, 0, 0, 0, 0, 0, 0, 0, 0⟩, disk, []⟩

/-- A partition of a disk with 32-bit block numbers that holds the fixed regions and some data
blocks, not more than one bitmap block can describe. -/
structure Partition.Usable (p : Partition) : Prop where
  nonempty : 57 < p.nsectors
  bitmap : p.nsectors ≤ 57 + 4096
  onDisk : p.startlba + p.nsectors ≤ 4294967296

/-- Block `n` belongs to the partition. -/
def Partition.Contains (p : Partition) (n : ℕ) : Prop := p.startlba ≤ n ∧ n < p.startlba + p.nsectors

/-- A mounted file system as formatting is meant to leave it: only inodes 0 and 1 are in use, both of
them directories without contents. Nothing is said about the data blocks. -/
structure Formatted (fs : Fs) : Prop where
  init : fs.init = true
  layout : fs.su.Layout
  bitmap : fs.disk fs.su.sbitmap = .zero
  null : fs.dinode nullInum = { Dinode.zero with type := tDir }
  root : fs.dinode rootInum = { Dinode.zero with type := tDir }
  free : ∀ i < 200, i ≠ nullInum → i ≠ rootInum → (fs.dinode i).type = 0

variable {fs : Fs} {p : Partition}

/-- The new superblock describes the partition. -/
theorem newSuper_eq (hp : p.Usable) : newSuper p =
    { start := p.startlba
      ninodes := 200
      nblockTot := p.nsectors
      nblockLog := 30
      nblockDat := p.nsectors - 57
      nblockInode := 25
      slog := p.startlba + 1
      sinode := p.startlba + 31
      sbitmap := p.startlba + 56
      sdata := p.startlba + 57
      magic := fsMagic } := by
  obtain ⟨hlow, hhigh, hdisk⟩ := hp
  have h1 : u32 (p.startlba + 1) = p.startlba + 1 := u32_of_lt (by omega)
  have h31 : u32 (p.startlba + 1 + 30) = p.startlba + 31 := u32_of_lt (by omega)
  have h56 : u32 (p.startlba + 31 + 25) = p.startlba + 56 := u32_of_lt (by omega)
  have h57 : u32 (p.startlba + 56 + 1) = p.startlba + 57 := u32_of_lt (by omega)
  have hdat : sub32 p.nsectors 57 = p.nsectors - 57 := by
    rw [sub32, show p.nsectors + (4294967296 - 57) = p.nsectors - 57 + 4294967296 by omega, u32,
      Nat.add_mod_right]
    exact Nat.mod_eq_of_lt (by omega)
  simp only [newSuper, nblocksLog, ninodesFixed, ninodesPerBlock, h1]
  norm_num only [h31, h56, h57, hdat]

/-- A new superblock has the layout. -/
theorem layout_newSuper (hp : p.Usable) : (newSuper p).Layout := by
  have hfits := hp.onDisk
  have hlow := hp.nonempty
  rw [newSuper_eq hp]
  exact ⟨rfl, rfl, rfl, rfl, rfl, rfl, by simp only; omega⟩

/-- The blocks that a superblock declares as its file system. -/
def Superblock.Spans (su : Superblock) (n : ℕ) : Prop := ∃ i < su.nblockTot, n = u32 (su.start + i)

/-- The loop zeroes the blocks from `start` on and no others. -/
theorem zeroBlocks_spec (start i n : ℕ) (fs : Fs) :
    (zeroBlocks start i n fs) = { fs with disk := (zeroBlocks start i n fs).disk } ∧
    ∀ b, ((∃ j, i ≤ j ∧ j < i + n ∧ b = u32 (start + j)) ∧ (zeroBlocks start i n fs).disk b = .zero) ∨
      (¬(∃ j, i ≤ j ∧ j < i + n ∧ b = u32 (start + j)) ∧
        (zeroBlocks start i n fs).disk b = fs.disk b) := by
  induction n generalizing i fs with
  | zero => exact ⟨rfl, fun b => .inr ⟨fun ⟨j, hj, hj', _⟩ => by omega, rfl⟩⟩
  | succ n ih =>
    obtain ⟨hsame, hblocks⟩ := ih (i + 1) (fs.diskWrite (u32 (start + i)) .zero)
    refine ⟨by rw [zeroBlocks, hsame]; rfl, fun b => ?_⟩
    rw [zeroBlocks]
    rcases hblocks b with ⟨⟨j, hj, hj', hb⟩, hzero⟩ | ⟨hnone, hkeep⟩
    · exact .inl ⟨⟨j, by omega, by omega, hb⟩, hzero⟩
    · by_cases hb : b = u32 (start + i)
      · refine .inl ⟨⟨i, le_rfl, by omega, hb⟩, ?_⟩
        rw [hkeep, hb, Fs.diskWrite_disk_self]
      · refine .inr ⟨fun ⟨j, hj, hj', hbj⟩ => ?_, by rw [hkeep, Fs.diskWrite_disk_of_ne hb]⟩
        rcases Nat.eq_or_lt_of_le hj with rfl | hlt
        · exact hb hbj
        · exact hnone ⟨j, hlt, by omega, hbj⟩

/-! ## What formatting leaves on the disk -/

/-- The state of `fs_format` before it reserves the first two inodes. -/
def blankFormat (fs : Fs) (p : Partition) : Fs :=
  { (zeroBlocks fs.su.start 0 fs.su.nblockTot fs).diskWrite p.startlba (newSuper p).toBlock with
    su := newSuper p }

/-- `fs_format` prepares the blank disk and reserves two inodes. -/
theorem fsFormat_eq (fs : Fs) (p : Partition) : fsFormat fs p =
    (allocInode (allocInode (blankFormat fs p) tDir).2 tDir).2 := rfl

/-- The superblock of the blank disk. -/
@[simp] theorem blankFormat_su (fs : Fs) (p : Partition) : (blankFormat fs p).su = newSuper p := rfl

/-- The superblock block of the blank disk. -/
theorem blankFormat_disk_start (fs : Fs) (p : Partition) :
    (blankFormat fs p).disk p.startlba = (newSuper p).toBlock := Fs.diskWrite_disk_self _ _ _

/-- Apart from the superblock the spanned blocks are zeroed and the others kept. -/
theorem blankFormat_disk (fs : Fs) {p : Partition} {n : ℕ} (hn : n ≠ p.startlba) :
    (fs.su.Spans n ∧ (blankFormat fs p).disk n = .zero) ∨
      (¬fs.su.Spans n ∧ (blankFormat fs p).disk n = fs.disk n) := by
  have hdisk : (blankFormat fs p).disk n = (zeroBlocks fs.su.start 0 fs.su.nblockTot fs).disk n :=
    Fs.diskWrite_disk_of_ne hn
  have hspan : (∃ j, 0 ≤ j ∧ j < 0 + fs.su.nblockTot ∧ n = u32 (fs.su.start + j)) ↔ fs.su.Spans n := by
    simp [Superblock.Spans]
  rw [hdisk, ← hspan]
  exact (zeroBlocks_spec fs.su.start 0 fs.su.nblockTot fs).2 n

/-- The reservation of an inode: a directory at the first free inode, if there is one. -/
structure Reserves (fs fs' : Fs) : Prop where
  su_eq : fs'.su = fs.su
  frame : ∀ n, ¬(fs.su.sinode ≤ n ∧ n < fs.su.sinode + 25) → fs'.disk n = fs.disk n
  cases : (∃ m < 200, (fs.dinode m).type = 0 ∧ (∀ j < m, (fs.dinode j).type ≠ 0) ∧
      fs'.dinode m = { Dinode.zero with type := tDir } ∧ ∀ j, j ≠ m → fs'.dinode j = fs.dinode j) ∨
    ((∀ j < 200, (fs.dinode j).type ≠ 0) ∧ ∀ j, fs'.dinode j = fs.dinode j)

/-- Allocating a directory reserves an inode. -/
theorem reserves_allocInode (hlayout : fs.su.Layout) : Reserves fs (allocInode fs tDir).2 := by
  rcases allocInode_cases hlayout tDir with
    ⟨m, hm, -, hfree, hleast, halloc⟩ | ⟨hnone, fmt, args, halloc⟩
  · rw [halloc]
    have hfit : ({ Dinode.zero with type := tDir } : Dinode).Fits :=
      { Dinode.fits_zero with type := by decide }
    refine ⟨rfl, fun n hn => Fs.setDinode_disk_of_ne (by omega), .inl ⟨m, hm, hfree, hleast, ?_, ?_⟩⟩
    · exact Fs.dinode_setDinode hfit
    · exact fun j hj => Fs.dinode_setDinode_of_ne hj
  · rw [halloc]
    exact ⟨rfl, fun _ _ => rfl, .inr ⟨hnone.resolve_left (by decide), fun _ => rfl⟩⟩

/-- An inode that is free in the end has been free before. -/
theorem Reserves.free_of_free {fs' : Fs} (h : Reserves fs fs') {i : ℕ} (hi : (fs'.dinode i).type = 0) :
    (fs.dinode i).type = 0 := by
  rcases h.cases with ⟨m, -, -, -, hnew, hrest⟩ | ⟨-, hrest⟩
  · by_cases him : i = m
    · rw [him, hnew] at hi
      exact absurd hi (by decide)
    · rwa [hrest i him] at hi
  · rwa [hrest i] at hi

/-- With all inodes free, two reservations take inodes 0 and 1. -/
theorem Reserves.twice_of_free {fs₁ fs₂ : Fs} (h₁ : Reserves fs fs₁) (h₂ : Reserves fs₁ fs₂)
    (hfree : ∀ i < 200, (fs.dinode i).type = 0) :
    fs₂.dinode 0 = { Dinode.zero with type := tDir } ∧ fs₂.dinode 1 = { Dinode.zero with type := tDir } ∧
      ∀ i, i ≠ 0 → i ≠ 1 → fs₂.dinode i = fs.dinode i := by
  rcases h₁.cases with ⟨m, -, -, hleast, hnew, hrest⟩ | ⟨hnone, -⟩
  · obtain rfl : m = 0 := by
      by_contra hm
      exact hleast 0 (by omega) (hfree 0 (by decide))
    rcases h₂.cases with ⟨m, -, hm, hleast', hnew', hrest'⟩ | ⟨hnone, -⟩
    · obtain rfl : m = 1 := by
        have h0 : m ≠ 0 := by
          rintro rfl
          rw [hnew] at hm
          exact absurd hm (by decide)
        by_contra h1
        exact hleast' 1 (by omega) (by rw [hrest 1 (by decide)]; exact hfree 1 (by decide))
      exact ⟨by rw [hrest' 0 (by decide), hnew], hnew', fun i h0 h1 => by rw [hrest' i h1, hrest i h0]⟩
    · exact absurd (by rw [hrest 1 (by decide)]; exact hfree 1 (by decide)) (hnone 1 (by decide))
  · exact absurd (hfree 0 (by decide)) (hnone 0 (by decide))

/-- When all inodes but 0 and 1 are free after two reservations, all were free before. -/
theorem Reserves.free_of_twice {fs₁ fs₂ : Fs} (h₁ : Reserves fs fs₁) (h₂ : Reserves fs₁ fs₂)
    (hfree : ∀ i < 200, i ≠ 0 → i ≠ 1 → (fs₂.dinode i).type = 0) :
    ∀ i < 200, (fs.dinode i).type = 0 := by
  have hrest₁ (i : ℕ) (hi : i < 200) (h0 : i ≠ 0) (h1 : i ≠ 1) : (fs₁.dinode i).type = 0 :=
    h₂.free_of_free (hfree i hi h0 h1)
  have htwo := h₁.free_of_free (hrest₁ 2 (by decide) (by decide) (by decide))
  rcases h₁.cases with ⟨m, hm, hmfree, -, hnew, hrest⟩ | ⟨hnone, -⟩
  · rcases h₂.cases with ⟨m', hm', hmfree', -, hnew', hrest'⟩ | ⟨hnone, -⟩
    · -- both have taken one of the inodes 0 and 1, and not the same one
      have hsmall : m = 0 ∨ m = 1 := by
        by_contra hge
        have h := hrest₁ m hm (by omega) (by omega)
        rw [hnew] at h
        exact absurd h (by decide)
      have hsmall' : m' = 0 ∨ m' = 1 := by
        by_contra hge
        have h := hfree m' hm' (by omega) (by omega)
        rw [hnew'] at h
        exact absurd h (by decide)
      have hne : m' ≠ m := by
        rintro rfl
        rw [hnew] at hmfree'
        exact absurd hmfree' (by decide)
      rw [hrest m' hne] at hmfree'
      intro i hi
      by_cases him : i = m
      · rw [him, hmfree]
      · by_cases him' : i = m'
        · rw [him', hmfree']
        · exact h₁.free_of_free (hrest₁ i hi (by omega) (by omega))
    · exact absurd (hrest₁ 2 (by decide) (by decide) (by decide)) (hnone 2 (by decide))
  · exact absurd htwo (hnone 2 (by decide))

/-- The state a caller of `fs_format` expects: nothing changed outside the partition, an empty bitmap,
and two empty directories as the only inodes. -/
structure EmptyFormat (d : Disk) (p : Partition) (fs' : Fs) : Prop where
  outside : ∀ n, ¬p.Contains n → fs'.disk n = d n
  bitmap : ∀ i < 512, (fs'.disk fs'.su.sbitmap).get i = 0
  reserved : ∀ i ∈ [nullInum, rootInum], (fs'.dinode i).type = tDir ∧ (fs'.dinode i).size = 0 ∧
    ∀ q ∈ (fs'.dinode i).ptrs, q = 0
  free : ∀ i < 200, i ≠ nullInum → i ≠ rootInum → (fs'.dinode i).type = 0

/-- The prior contents of the disk for which formatting works: `su` is what the failed mount has read,
and the blocks it spans are zeroed. They must not hold anything outside the partition, and the
bitmap and the inode table must be clean unless they are zeroed as well. -/
structure FormatClean (d : Disk) (p : Partition) (su : Superblock) : Prop where
  outside : ∀ n, su.Spans n → ¬p.Contains n → d n = .zero
  bitmap : su.Spans (p.startlba + 56) ∨ d (p.startlba + 56) = .zero
  inodes : ∀ k < 25, su.Spans (p.startlba + 31 + k) ∨
    ∀ j < 8, ((d (p.startlba + 31 + k)).inode j).type = 0

/-- A block is zero when its bytes are. -/
theorem Block.eq_zero_iff {b : Block} : b = .zero ↔ ∀ i < 512, b.get i = 0 := by
  refine ⟨fun h i _ => by rw [h, Block.get_zero], fun h => Block.ext_get fun i hi => ?_⟩
  rw [h i hi, Block.get_zero]

/-- The inode table before the reservations is free when it is zeroed or has been free. -/
theorem blankFormat_free_iff (fs : Fs) (hp : p.Usable) :
    (∀ i < 200, ((blankFormat fs p).dinode i).type = 0) ↔ ∀ k < 25, fs.su.Spans (p.startlba + 31 + k) ∨
      ∀ j < 8, ((fs.disk (p.startlba + 31 + k)).inode j).type = 0 := by
  have hdinode (i : ℕ) : (blankFormat fs p).dinode i =
      ((blankFormat fs p).disk (p.startlba + 31 + i / 8)).inode (i % 8) := by
    rw [Fs.dinode, blankFormat_su, newSuper_eq hp]
  constructor
  · intro hfree k hk
    rcases blankFormat_disk fs (show p.startlba + 31 + k ≠ p.startlba by omega) with
      ⟨hspan, -⟩ | ⟨-, hkeep⟩
    · exact .inl hspan
    · refine .inr fun j hj => ?_
      have h := hfree (8 * k + j) (by omega)
      rwa [hdinode, show (8 * k + j) / 8 = k by omega, show (8 * k + j) % 8 = j by omega, hkeep] at h
  · intro hclean i hi
    rw [hdinode]
    rcases blankFormat_disk fs (show p.startlba + 31 + i / 8 ≠ p.startlba by omega) with
      ⟨-, hzero⟩ | ⟨hspan, hkeep⟩
    · rw [hzero, Block.inode_zero]
      rfl
    · rw [hkeep]
      exact (hclean (i / 8) (by omega)).resolve_left hspan (i % 8) (by omega)

/-- Formatting is the preparation of the blank disk followed by two reservations, which stay inside the
inode table. -/
theorem reserves_fsFormat (fs : Fs) (hp : p.Usable) :
    ∃ fs₁, Reserves (blankFormat fs p) fs₁ ∧ Reserves fs₁ (fsFormat fs p) ∧
      (fsFormat fs p).su = newSuper p ∧
      ∀ n, ¬(p.startlba + 31 ≤ n ∧ n < p.startlba + 56) →
        (fsFormat fs p).disk n = (blankFormat fs p).disk n := by
  have hlayout : (blankFormat fs p).su.Layout := layout_newSuper hp
  have h₁ := reserves_allocInode hlayout
  have hlayout₁ : (allocInode (blankFormat fs p) tDir).2.su.Layout := by rw [h₁.su_eq]; exact hlayout
  have h₂ := reserves_allocInode hlayout₁
  have hsinode : (blankFormat fs p).su.sinode = p.startlba + 31 := by rw [blankFormat_su, newSuper_eq hp]
  rw [fsFormat_eq]
  refine ⟨_, h₁, h₂, by rw [h₂.su_eq, h₁.su_eq, blankFormat_su], fun n hn => ?_⟩
  rw [h₂.frame n (by rw [h₁.su_eq, hsinode]; omega), h₁.frame n (by rw [hsinode]; omega)]

/-- Formatting yields an empty file system exactly on the clean disks. -/
theorem emptyFormat_iff (fs : Fs) (hp : p.Usable) :
    EmptyFormat fs.disk p (fsFormat fs p) ↔ FormatClean fs.disk p fs.su := by
  obtain ⟨fs₁, h₁, h₂, hsu, hframe⟩ := reserves_fsFormat fs hp
  have hsbitmap : (fsFormat fs p).su.sbitmap = p.startlba + 56 := by rw [hsu, newSuper_eq hp]
  have hlow := hp.nonempty
  have hsplit := blankFormat_free_iff fs hp
  constructor
  · rintro ⟨houtside, hbitmap, -, hfree⟩
    refine ⟨fun n hspan hn => ?_, ?_, ?_⟩
    · have hstart : n ≠ p.startlba := by
        rintro rfl
        exact hn ⟨le_rfl, by omega⟩
      have hkeep := houtside n hn
      rw [hframe n (fun h => hn ⟨by omega, by omega⟩)] at hkeep
      rcases blankFormat_disk fs hstart with ⟨-, hzero⟩ | ⟨hnspan, -⟩
      · rw [← hkeep, hzero]
      · exact absurd hspan hnspan
    · rw [← Block.eq_zero_iff, hsbitmap, hframe _ (by omega)] at hbitmap
      rcases blankFormat_disk fs (show p.startlba + 56 ≠ p.startlba by omega) with
        ⟨hspan, -⟩ | ⟨-, hkeep⟩
      · exact .inl hspan
      · exact .inr (hkeep ▸ hbitmap)
    · exact hsplit.mp (h₁.free_of_twice h₂ hfree)
  · rintro ⟨houtside, hbitmap, hinodes⟩
    have hfree := hsplit.mpr hinodes
    obtain ⟨hnull, hroot, hrest⟩ := h₁.twice_of_free h₂ hfree
    refine ⟨fun n hn => ?_, ?_, ?_, fun i hi h0 h1 => ?_⟩
    · have hstart : n ≠ p.startlba := by
        rintro rfl
        exact hn ⟨le_rfl, by omega⟩
      rw [hframe n (fun h => hn ⟨by omega, by omega⟩)]
      rcases blankFormat_disk fs hstart with ⟨hspan, hzero⟩ | ⟨-, hkeep⟩
      · rw [hzero, houtside n hspan hn]
      · exact hkeep
    · rw [← Block.eq_zero_iff, hsbitmap, hframe _ (by omega)]
      rcases blankFormat_disk fs (show p.startlba + 56 ≠ p.startlba by omega) with
        ⟨-, hzero⟩ | ⟨hspan, hkeep⟩
      · exact hzero
      · rw [hkeep]
        exact hbitmap.resolve_left hspan
    · intro i hi
      have hdi : (fsFormat fs p).dinode i = { Dinode.zero with type := tDir } := by
        simp only [nullInum, rootInum, List.mem_cons, List.not_mem_nil, or_false] at hi
        rcases hi with rfl | rfl
        · exact hnull
        · exact hroot
      rw [hdi]
      exact ⟨rfl, rfl, fun q hq => List.eq_of_mem_replicate hq⟩
    · rw [hrest i h0 h1]
      exact hfree i hi

/-- A superblock that fits in 32-bit words reads back after formatting. -/
theorem su_newSuper (hp : p.Usable) : (newSuper p).toBlock.su = newSuper p := by
  apply Superblock.su_toBlock
  have hfits := hp.onDisk
  have hlow := hp.nonempty
  have hhigh := hp.bitmap
  rw [newSuper_eq hp]
  simp only [Superblock.words, List.mem_cons, List.not_mem_nil, or_false, forall_eq_or_imp,
    forall_eq, fsMagic]
  omega

/-- Formatting and mounting a clean disk yields an empty file system. -/
theorem formatted_of_clean (hp : p.Usable) (hclean : FormatClean fs.disk p fs.su) :
    ∃ fs', fsInit (fsFormat fs p) p = (true, fs') ∧ Formatted fs' ∧ fs'.su = newSuper p ∧
      ∀ n, ¬(p.startlba + 31 ≤ n ∧ n < p.startlba + 56) → fs'.disk n = (blankFormat fs p).disk n := by
  obtain ⟨fs₁, h₁, h₂, hsu, hframe⟩ := reserves_fsFormat fs hp
  have hsuper : (fsFormat fs p).disk p.startlba = (newSuper p).toBlock := by
    rw [hframe _ (by omega), blankFormat_disk_start]
  have hread : ((fsFormat fs p).diskRead p.startlba).su = newSuper p := by
    rw [Fs.diskRead, hsuper, su_newSuper hp]
  have hempty := (emptyFormat_iff fs hp).mpr hclean
  obtain ⟨hnull, hroot, -⟩ := h₁.twice_of_free h₂ ((blankFormat_free_iff fs hp).mpr hclean.inodes)
  have hlayout : (fsFormat fs p).su.Layout := by rw [hsu]; exact layout_newSuper hp
  have hbitmap : (fsFormat fs p).disk (fsFormat fs p).su.sbitmap = .zero :=
    Block.eq_zero_iff.mpr hempty.bitmap
  have hfree := hempty.free
  generalize fsFormat fs p = fs₂ at *
  refine ⟨{ fs₂ with init := true }, ?_, ⟨rfl, hlayout, hbitmap, hnull, hroot, hfree⟩, hsu, hframe⟩
  rw [fsInit, hread, if_neg (by simp [newSuper]), ← hsu]

/-- Mounting fails on a block of zeros. -/
theorem fsInit_of_zero (hzero : fs.disk p.startlba = .zero) :
    fsInit fs p = (false, { fs with su := Block.zero.su }) := by
  have hmagic : (Block.zero.su).magic = 0 := by
    simp [Block.su, Block.ptr, LittleEndian.value]
  rw [fsInit, Fs.diskRead, hzero, hmagic, if_pos (by decide)]

/-- On a partition of zeros `mkfs` mounts an empty file system. -/
theorem formatted_mkfsMount (hp : p.Usable) {disk : Disk} (hzero : ∀ n, p.Contains n → disk n = .zero) :
    ∃ fs, mkfsMount (Fs.boot disk) p = .ok fs ∧ Formatted fs ∧ fs.su = newSuper p := by
  have hlow := hp.nonempty
  have hstart : disk p.startlba = .zero := hzero _ ⟨le_rfl, by omega⟩
  have hsu : (Block.zero.su).nblockTot = 0 := by
    simp [Block.su, Block.ptr, LittleEndian.value]
  have hfail : fsInit (Fs.boot disk) p = (false, { Fs.boot disk with su := Block.zero.su }) :=
    fsInit_of_zero hstart
  have hclean : FormatClean disk p Block.zero.su := by
    refine ⟨fun n hspan _ => ?_, .inr (hzero _ ⟨by omega, by omega⟩), fun k hk => .inr fun j _ => ?_⟩
    · obtain ⟨i, hi, -⟩ := hspan
      rw [hsu] at hi
      omega
    · rw [hzero _ ⟨by omega, by omega⟩, Block.inode_zero]
      rfl
  obtain ⟨fs', hmount, hformatted, hsuper, -⟩ :=
    formatted_of_clean hp (show FormatClean { Fs.boot disk with su := Block.zero.su }.disk p
      _ from hclean)
  refine ⟨fs', ?_, hformatted, hsuper⟩
  rw [mkfsMount, hfail]
  dsimp only
  rw [if_neg (by decide), hmount]
  rfl

/-- After a failed mount, formatting leaves an empty file system if and only if the disk was clean for
the superblock that the mount has read. -/
theorem fsFormat_empty_iff (fs : Fs) (hp : p.Usable) (hfail : (fsInit fs p).1 = false) :
    EmptyFormat fs.disk p (fsFormat (fsInit fs p).2 p) ↔
      FormatClean fs.disk p (fs.disk p.startlba).su := by
  have hinit : (fsInit fs p).2 = { fs with su := (fs.disk p.startlba).su } := by
    rw [fsInit] at hfail ⊢
    split at hfail
    · rename_i hmagic
      rw [if_pos hmagic]
      rfl
    · cases hfail
  rw [hinit]
  exact emptyFormat_iff { fs with su := (fs.disk p.startlba).su } hp

/-- A disk without a superblock whose bitmap block is not zero. -/
def staleBitmap : Disk := fun n => if n = 56 then Block.zero.setByte 0 1 else .zero

/-- The bitmap survives formatting. -/
theorem fsFormat_keeps_bitmap :
    (Partition.mk 0 65).Usable ∧ (fsInit (Fs.boot staleBitmap) ⟨0, 65⟩).1 = false ∧
      ¬EmptyFormat staleBitmap ⟨0, 65⟩ (fsFormat (fsInit (Fs.boot staleBitmap) ⟨0, 65⟩).2 ⟨0, 65⟩) := by
  have hp : (Partition.mk 0 65).Usable := by constructor <;> decide
  have hfail : fsInit (Fs.boot staleBitmap) ⟨0, 65⟩ =
      (false, { Fs.boot staleBitmap with su := Block.zero.su }) :=
    fsInit_of_zero rfl
  rw [hfail]
  refine ⟨hp, rfl, fun hempty => ?_⟩
  rcases ((emptyFormat_iff { Fs.boot staleBitmap with su := Block.zero.su } hp).mp hempty).bitmap with
    ⟨i, hi, -⟩ | hzero
  · exact absurd hi (by simp [Block.su, Block.ptr, LittleEndian.value])
  · have hbyte : (staleBitmap 56).get 0 = 1 := rfl
    have hzero' : staleBitmap 56 = .zero := hzero
    rw [hzero', Block.get_zero] at hbyte
    exact absurd hbyte (by decide)

/-- A partition that has lost the magic number of its superblock: the superblock still spans the 65
blocks, and every other block holds a stale byte. -/
def formerDisk : Disk := fun n =>
  if n = 0 then ({ newSuper ⟨0, 65⟩ with magic := 0 } : Superblock).toBlock else Block.zero.setByte 0 1

/-- The superblock block of the former file system reads back. -/
theorem formerDisk_su : (formerDisk 0).su = { newSuper ⟨0, 65⟩ with magic := 0 } := by
  apply Superblock.su_toBlock
  decide

/-- The stale blocks of a former file system are zeroed, since its superblock still spans them. -/
theorem fsFormat_empty_iff_former :
    formerDisk 56 ≠ .zero ∧ ((formerDisk 31).inode 0).type ≠ 0 ∧
      EmptyFormat formerDisk ⟨0, 65⟩ (fsFormat (fsInit (Fs.boot formerDisk) ⟨0, 65⟩).2 ⟨0, 65⟩) := by
  have hfail : (fsInit (Fs.boot formerDisk) ⟨0, 65⟩).1 = false := by
    rw [fsInit, Fs.diskRead, show (Fs.boot formerDisk).disk = formerDisk from rfl, formerDisk_su]
    rfl
  have hspan (n : ℕ) : (formerDisk 0).su.Spans n ↔ n < 65 := by
    rw [formerDisk_su]
    have hid (i : ℕ) (hi : i < 65) : u32 (0 + i) = i := by
      rw [Nat.zero_add, u32, Nat.mod_eq_of_lt (by omega)]
    constructor
    · rintro ⟨i, hi, rfl⟩
      exact (hid i hi).symm ▸ hi
    · exact fun hn => ⟨n, hn, (hid n hn).symm⟩
  have hclean : FormatClean formerDisk ⟨0, 65⟩ (formerDisk 0).su := by
    refine ⟨fun n hn hout => ?_, .inl ((hspan _).mpr (by decide)), fun k hk => .inl ((hspan _).mpr ?_)⟩
    · exact absurd ⟨n.zero_le, (hspan n).mp hn⟩ hout
    · simp only
      omega
  refine ⟨fun hzero => ?_, by decide, (fsFormat_empty_iff (Fs.boot formerDisk) (p := ⟨0, 65⟩)
    (by constructor <;> decide) hfail).mpr hclean⟩
  have hbyte : (formerDisk 56).get 0 = 1 := rfl
  rw [hzero, Block.get_zero] at hbyte
  exact absurd hbyte (by decide)

end Hobby386
