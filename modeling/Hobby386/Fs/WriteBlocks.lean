import Hobby386.Fs.WriteSize

/-!
# The blocks a write allocates

`inode_rw` takes for the last block of a write the one that holds the byte behind its end. When
the write ends at a block boundary, or has no bytes at all, this block is none that the write
needs, and it is allocated all the same.
-/

namespace Hobby386

open PointerForest

/-- Block `m` is the data block of a file block that holds a byte of the request and was unmapped, or an
indirect block on the path to such a file block, and the pointer to it was null. -/
def NeededBlock (fs : Fs) (inum off sz : ℕ) (fs' : Fs) (m : ℕ) : Prop :=
  ∃ b h, off / 512 ≤ b ∧ b * 512 < off + sz ∧ fs.fileBlock inum b = 0 ∧
    fs.pathBlock inum h b = 0 ∧ fs'.pathBlock inum h b = m

/-- The blocks newly marked in the bitmap are those that the write needs, none for a write of no
bytes. -/
def AllocatesNeeded (fs : Fs) (inum off sz : ℕ) (fs' : Fs) : Prop :=
  ∀ m, fs.su.InData m → (marked fs.su fs'.disk m = true ∧ marked fs.su fs.disk m = false ↔
    0 < sz ∧ NeededBlock fs inum off sz fs' m)

/-- The null pointers on the paths to the file blocks that hold a byte of the request. -/
def Fs.neededNulls (fs : Fs) (inum off sz : ℕ) : List (ℕ × ℕ) :=
  if sz = 0 then []
  else PointerForest.need Block.ptrs nptrsPerBlock fs.disk (off / 512) ((off + sz - 1) / 512)
    (fs.dinode inum).forest 0

/-- The block of the byte behind the request takes nothing from the free blocks: it holds a byte of
the request as well, or lies behind the addressable ones, or is mapped, or comes when no free block
is left. -/
def Fs.EndTakesNothing (fs : Fs) (inum off sz : ℕ) : Prop :=
  (0 < sz ∧ (off + sz) % 512 ≠ 0) ∨ maxBlocks ≤ (off + sz) / 512 ∨
    fs.fileBlock inum ((off + sz) / 512) ≠ 0 ∨
    (freeBlocks fs.su fs.disk).length ≤ (fs.neededNulls inum off sz).length

instance (fs : Fs) (inum off sz : ℕ) : Decidable (fs.EndTakesNothing inum off sz) :=
  inferInstanceAs (Decidable (_ ∨ _ ∨ _ ∨ _))

variable {fs fs' : Fs} {inum off sz : ℕ}

/-- Of two prefixes of a list without repetitions, the longer has an element more. -/
theorem take_congr_iff {units : List ℕ} (hnodup : units.Nodup) {a b : ℕ} (hab : a ≤ b) :
    (∀ m ∈ units, m ∈ units.take b ↔ m ∈ units.take a) ↔ a = b ∨ units.length ≤ a := by
  constructor
  · intro h
    by_contra hnot
    rw [not_or, Nat.not_le] at hnot
    have hget : units[a] ∈ units.take a := by
      refine (h _ (List.getElem_mem hnot.2)).mp (List.mem_iff_getElem.mpr ⟨a, ?_, List.getElem_take⟩)
      rw [List.length_take]
      omega
    obtain ⟨i, hi, heq⟩ := List.mem_iff_getElem.mp hget
    rw [List.length_take] at hi
    rw [List.getElem_take] at heq
    have hia := (List.Nodup.getElem_inj_iff hnodup).mp heq
    omega
  · rintro (rfl | hlen) m -
    · rfl
    · rw [List.take_of_length_le hlen, List.take_of_length_le (hlen.trans hab)]

section Blocks

variable (hend : off + sz ≤ maxBytes)

include hend

/-- The null pointers a write fills are those it needs, followed by those of the block behind its end. -/
theorem need_eq_append (fs : Fs) (inum : ℕ) (buf : Memory) :
    ∃ later, fs.need inum (writeRequest buf sz off) =
      fs.neededNulls inum off sz ++ later ∧ ∀ t ∈ later, 0 < sz → (off + sz - 1) / 512 < t.2 := by
  have heblock : u32 (off + sz) = off + sz :=
    u32_of_lt (by simp only [maxBytes, maxBlocks] at hend; omega)
  rw [Fs.neededNulls]
  split
  · rename_i hzero
    exact ⟨_, List.nil_append _ |>.symm, fun _ _ hpos => absurd hzero (Nat.ne_of_gt hpos)⟩
  · obtain ⟨later, heq, hlater⟩ :=
      need_prefix (d := fs.disk) (s := off / 512) (F := (fs.dinode inum).forest)
      (B := 0) (by decide) Block.ptrs_length (show (off + sz - 1) / 512 ≤ u32 (off + sz) / 512 by omega)
    exact ⟨later, heq, fun t ht _ => hlater t ht⟩

/-- The block behind the end needs no pointer that the request does not need if it holds a byte of
the request, lies behind the addressable blocks, or is mapped. -/
theorem need_eq_iff (buf : Memory) :
    (fs.neededNulls inum off sz).length = (fs.need inum (writeRequest buf sz off)).length ↔
      (0 < sz ∧ (off + sz) % 512 ≠ 0) ∨ maxBlocks ≤ (off + sz) / 512 ∨
        fs.fileBlock inum ((off + sz) / 512) ≠ 0 := by
  have heblock : u32 (off + sz) = off + sz :=
    u32_of_lt (by simp only [maxBytes, maxBlocks] at hend; omega)
  have hwidth := Dinode.width_forest (fs.fits_dinode inum).length
  obtain ⟨later, heq, hlater⟩ := need_eq_append hend fs inum buf
  have hmem {t : ℕ × ℕ} (ht : t ∈ later) : t ∈ PointerForest.need Block.ptrs 128 fs.disk (off / 512)
      ((off + sz) / 512) (fs.dinode inum).forest 0 := by
    rw [← heblock]
    change t ∈ fs.need inum (writeRequest buf sz off)
    rw [heq]
    exact List.mem_append_right _ ht
  have hlast : (fs.neededNulls inum off sz).length = (fs.need inum (writeRequest buf sz off)).length ↔
      later = [] := by
    rw [heq, List.length_append, ← List.length_eq_zero_iff]
    omega
  rw [hlast]
  constructor
  · rintro rfl
    by_contra hnot
    rw [not_or, not_or, not_ne_iff, Nat.not_le] at hnot
    obtain ⟨hboundary, hin, hzero⟩ := hnot
    have hneed : (0, (off + sz) / 512) ∈ fs.need inum (writeRequest buf sz off) :=
      mem_need_of_lookup Block.ptrs_length (show off / 512 ≤ _ by omega)
        (show _ ≤ u32 (off + sz) / 512 by rw [heblock]) (Nat.zero_le _)
        (by rwa [hwidth, Nat.zero_add]) hzero
    rw [heq, List.append_nil, Fs.neededNulls] at hneed
    split at hneed
    · simp at hneed
    · have hover := (need_overlap hneed).1
      dsimp only at hover
      omega
  · intro hcond
    by_contra hne
    obtain ⟨t, ht⟩ := List.exists_mem_of_ne_nil later hne
    have hbehind := hlater t ht
    obtain ⟨hover, hover'⟩ := need_overlap (hmem ht)
    have hpos : 0 < 128 ^ t.1 := Nat.pow_pos (by decide)
    have htend := (need_inside Block.ptrs_length (hmem ht)).2
    rw [hwidth, Nat.zero_add] at htend
    have hcovers : (off + sz) / 512 < t.2 + 128 ^ t.1 := by
      rcases Nat.eq_zero_or_pos sz with rfl | hsz
      · exact hover'
      · have := hbehind hsz
        omega
    rcases hcond with ⟨hsz, hmod⟩ | hout | hmap
    · have := hbehind hsz
      omega
    · omega
    · exact hmap (lookup_of_mem_need Block.ptrs_length (hmem ht) hover hcovers)

end Blocks

/-- The blocks newly marked by a write are those it takes. -/
theorem FileWritten.newlyMarked_iff {c : WriteRequest} {n m : ℕ} (h : FileWritten fs inum c n fs')
    (hm : fs.su.InData m) :
    (Hobby386.marked fs.su fs'.disk m = true ∧ Hobby386.marked fs.su fs.disk m = false) ↔
      m ∈ fs.taken inum c := by
  rw [h.marked m hm.1, Bool.or_eq_true, decide_eq_true_iff]
  constructor
  · rintro ⟨hor, hold⟩
    exact hor.resolve_left (by rw [hold]; decide)
  · intro htaken
    exact ⟨.inr htaken, (of_mem_freeBlocks (List.mem_of_mem_take htaken)).2⟩

/-- A write that has transferred all its bytes found a block for every pointer it needs. -/
theorem neededNulls_le {buf : Memory} {B : ℕ} (hend : off + sz ≤ maxBytes)
    (h : StoppedAt fs inum (writeRequest buf sz off) B fs')
    (hdone : (writeRequest buf sz off).done B = sz) :
    (fs.neededNulls inum off sz).length ≤ (freeBlocks fs.su fs.disk).length := by
  obtain ⟨later, heq, -⟩ := need_eq_append hend fs inum buf
  rcases h.outcome with ⟨-, hle⟩ | ⟨-, height, hstop⟩
  · rw [heq, List.length_append] at hle
    omega
  · by_contra hshort
    rw [Nat.not_le] at hshort
    rw [heq, List.getElem?_append_left hshort] at hstop
    have hmem := List.mem_of_getElem? hstop
    rw [Fs.neededNulls] at hmem
    split at hmem
    · simp at hmem
    · have hover := (need_overlap hmem).1
      have hmin : min sz (512 * B - off) = sz := hdone
      dsimp only at hover
      omega

/-- The blocks the request needs are the first ones that the write takes. -/
theorem neededBlock_iff {buf : Memory} {B m : ℕ} (hend : off + sz ≤ maxBytes)
    (h : StoppedAt fs inum (writeRequest buf sz off) B fs') (hm : m ≠ 0) :
    (0 < sz ∧ NeededBlock fs inum off sz fs' m) ↔
      m ∈ (freeBlocks fs.su fs.disk).take (fs.neededNulls inum off sz).length := by
  obtain ⟨later, heq, hlater⟩ := need_eq_append hend fs inum buf
  have hfilled := h.filled
  simp only [heq, FirstFit.zip_append_left, List.mem_append] at hfilled
  rw [FirstFit.mem_take_iff_zip]
  constructor
  · rintro ⟨hsz, b, height, hlow, hhigh, -, hnull, hnew⟩
    obtain ⟨A, hA, hmem⟩ := (hfilled height b m hm).mp ⟨hnull, hnew⟩
    refine ⟨(height, A), hmem.resolve_right fun hmem => ?_⟩
    have hbehind := hlater _ (List.of_mem_zip hmem).1 hsz
    dsimp only at hbehind
    omega
  · rintro ⟨⟨height, A⟩, hmem⟩
    have hneeded := (List.of_mem_zip hmem).1
    rw [Fs.neededNulls] at hneeded
    split at hneeded
    · simp at hneeded
    · rename_i hsz
      obtain ⟨hover, hover'⟩ := need_overlap hneeded
      simp only [nptrsPerBlock] at hover hover'
      have hpos : 0 < 128 ^ height := Nat.pow_pos (by decide)
      have hcovers : A ≤ max (off / 512) A ∧ max (off / 512) A < A + 128 ^ height := by omega
      obtain ⟨hnull, hnew⟩ := (hfilled height (max (off / 512) A) m hm).mpr ⟨A, hcovers, .inl hmem⟩
      refine ⟨by omega, max (off / 512) A, height, by omega, by omega, ?_, hnull, hnew⟩
      exact lookup_of_mem_need Block.ptrs_length hneeded hcovers.1 hcovers.2

/-- The blocks taken by a write that has transferred all its bytes are those it needs if and only if
the block of the byte behind its end takes nothing. -/
theorem allocatesNeeded_iff (hlayout : fs.su.Layout) {buf : Memory} {B n : ℕ}
    (hend : off + sz ≤ maxBytes) (hwritten : FileWritten fs inum (writeRequest buf sz off) n fs')
    (hstopped : StoppedAt fs inum (writeRequest buf sz off) B fs')
    (hdone : (writeRequest buf sz off).done B = sz) :
    AllocatesNeeded fs inum off sz fs' ↔ fs.EndTakesNothing inum off sz := by
  have hpos := hlayout.sdata
  have hle := neededNulls_le hend hstopped hdone
  have hlen : (fs.neededNulls inum off sz).length ≤ (fs.need inum (writeRequest buf sz off)).length := by
    obtain ⟨later, heq, -⟩ := need_eq_append hend fs inum buf
    rw [heq, List.length_append]
    exact Nat.le_add_right _ _
  have hblock {m : ℕ} (hdata : fs.su.InData m) :
      (marked fs.su fs'.disk m = true ∧ marked fs.su fs.disk m = false ↔
        0 < sz ∧ NeededBlock fs inum off sz fs' m) ↔
      (m ∈ (freeBlocks fs.su fs.disk).take (fs.need inum (writeRequest buf sz off)).length ↔
        m ∈ (freeBlocks fs.su fs.disk).take (fs.neededNulls inum off sz).length) := by
    have hlow := hdata.1
    rw [hwritten.newlyMarked_iff hdata, neededBlock_iff hend hstopped (by omega)]
    rfl
  have hset : AllocatesNeeded fs inum off sz fs' ↔ ∀ m ∈ freeBlocks fs.su fs.disk,
      m ∈ (freeBlocks fs.su fs.disk).take (fs.need inum (writeRequest buf sz off)).length ↔
        m ∈ (freeBlocks fs.su fs.disk).take (fs.neededNulls inum off sz).length := by
    constructor
    · intro halloc m hm
      have hdata := (of_mem_freeBlocks hm).1
      exact (hblock hdata).mp (halloc m hdata)
    · intro htake m hdata
      refine (hblock hdata).mpr ⟨fun hm => ?_, fun hm => ?_⟩
      · exact (htake m (List.mem_of_mem_take hm)).mp hm
      · exact (htake m (List.mem_of_mem_take hm)).mpr hm
  rw [hset, take_congr_iff (nodup_freeBlocks _ _) hlen, need_eq_iff hend, Fs.EndTakesNothing,
    or_assoc, or_assoc]

/-- A write to a regular file that stores all its bytes allocates exactly the blocks it needs if and
only if the block of the byte behind its end takes nothing. -/
theorem fsWrite_allocates_iff (hwf : WellFormed fs) (hreg : (fs.dinode inum).type = tReg)
    (hinum : inum < fs.su.ninodes) (hend : off + sz ≤ maxBytes) {buf : Memory} {fs' : Fs}
    (h : fsWrite fs inum buf sz off = .ok ((sz : ℤ), fs')) :
    AllocatesNeeded fs inum off sz fs' ↔ fs.EndTakesNothing inum off sz := by
  have halloc : fs.Allocated inum := ⟨hinum, by rw [hreg]; decide⟩
  have hbound : off + sz ≤ 8524800 := hend
  have hbits : bits32 (sz : ℤ) = sz := bits32_natCast (by omega)
  obtain ⟨B, hret, hwritten, hstopped⟩ := fsWrite_stoppedAt hwf halloc (by omega) (by omega) h rfl
  rw [hbits] at hret hwritten hstopped
  exact allocatesNeeded_iff hwf.layout hend hwritten hstopped (Int.ofNat_inj.mp hret.symm)

/-- A write at the start of the small file that has stored what it was given. -/
theorem fsWrite_staleFree (sz : ℕ) (h : (fsWrite staleFree 2 (fun _ => 1) sz 0).map Prod.fst = .ok
    (sz : ℤ)) :
    ∃ fs', fsWrite staleFree 2 (fun _ => 1) sz 0 = .ok ((sz : ℤ), fs') := by
  obtain ⟨⟨ret, fs'⟩, hrun⟩ :=
    fsWrite_returns (show staleFree.su.nblockDat ≤ 4096 by decide) 2 (fun _ => 1) sz 0
  rw [hrun] at h
  cases h
  exact ⟨fs', hrun⟩

/-- The file of the example is a regular file. -/
theorem reg_staleFree : (staleFree.dinode 2).type = tReg := by
  rw [dinode_staleFree]
  rfl

/-- A write of one whole block into an empty file takes block 58 as well, for the second block of
the file. -/
theorem fsWrite_block_too_many :
    (WellFormed staleFree ∧ 0 < staleFree.su.nblockDat ∧ staleFree.su.nblockDat ≤ 4096 ∧
      (staleFree.dinode 2).type = tReg) ∧
    ∃ fs', fsWrite staleFree 2 (fun _ => 1) 512 0 = .ok (512, fs') ∧
      marked staleFree.su staleFree.disk 58 = false ∧
      marked staleFree.su fs'.disk 58 = true ∧ ¬AllocatesNeeded staleFree 2 0 512 fs' := by
  refine ⟨⟨wellFormed_staleFree, by decide, by decide, reg_staleFree⟩, ?_⟩
  obtain ⟨fs', hrun⟩ := fsWrite_staleFree 512 (by decide +kernel)
  have hmarked : (fsWrite staleFree 2 (fun _ => 1) 512 0).map
      (fun r => marked staleFree.su r.2.disk 58) =
      .ok true := by decide +kernel
  obtain ⟨B, hret, hwritten, hstopped⟩ := fsWrite_stoppedAt wellFormed_staleFree allocated_staleFree
    (by decide) (by decide) hrun rfl
  refine ⟨fs', hrun, by decide, ?_, fun hneeded => ?_⟩
  · rw [show (512 : ℤ) = ((512 : ℕ) : ℤ) from rfl, hrun] at hmarked
    exact Except.ok.inj hmarked
  · have hend := (allocatesNeeded_iff wellFormed_staleFree.layout (by decide) hwritten hstopped
      (Int.ofNat_inj.mp hret.symm)).mp hneeded
    exact absurd hend (by decide +kernel)

/-- The characterisation at a write that ends inside the block. -/
theorem fsWrite_allocates_iff_staleFree :
    ∃ fs', fsWrite staleFree 2 (fun _ => 1) (511 : ℕ) 0 = .ok ((511 : ℕ), fs') ∧
    (AllocatesNeeded staleFree 2 0 511 fs' ↔ staleFree.EndTakesNothing 2 0 511) := by
  obtain ⟨fs', hrun⟩ := fsWrite_staleFree 511 (by decide +kernel)
  exact ⟨fs', hrun, fsWrite_allocates_iff wellFormed_staleFree reg_staleFree (by decide)
    (by decide) hrun⟩

end Hobby386
