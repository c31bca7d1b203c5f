import Hobby386.Fs.WriteFile

/-!
# Files a write does not touch

Ownership is sound again after a write, so the argument can be repeated over whole runs: the
blocks of the other files, their inodes, the superblock and the log stay as they are.
-/

namespace Hobby386

open PointerForest

variable {fs fs' : Fs} {inum n : ℕ} {c : WriteRequest}

/-- A write keeps the superblock. -/
theorem FileWritten.su_eq (h : FileWritten fs inum c n fs') : fs'.su = fs.su := by rw [h.same]

/-- A write keeps the mount. -/
theorem FileWritten.init_eq (h : FileWritten fs inum c n fs') : fs'.init = fs.init := by rw [h.same]

/-- The transferred bytes are requested ones. -/
theorem FileWritten.le_sz (h : FileWritten fs inum c n fs') : n ≤ c.sz := by
  rcases h.outcome with ⟨hn, -⟩ | ⟨⟨B, -, hn⟩, -⟩
  · rw [hn]
    exact Nat.min_le_left _ _
  · rw [hn]
    exact Nat.min_le_left _ _

/-- A write changes no type, so every inode stays allocated or free. -/
theorem FileWritten.type_eq (h : FileWritten fs inum c n fs') {j : ℕ} (hj : j < 200) :
    (fs'.dinode j).type = (fs.dinode j).type := by
  by_cases hne : j = inum
  · rw [hne, h.inode]
  · rw [h.others j hj hne]

/-- A free inode owns nothing. -/
theorem Fs.refs_of_free {j m : ℕ} (h : (fs.dinode j).type = 0) : fs.refs j m = 0 := if_pos h

/-- What one inode owns is owned. -/
theorem Fs.refs_le_owners {j : ℕ} (hj : j < 200) (m : ℕ) : fs.refs j m ≤ fs.owners m :=
  Finset.single_le_sum (f := fun i => fs.refs i m) (fun _ _ => Nat.zero_le _) (Finset.mem_range.mpr hj)

/-- Two inodes never own the same block. -/
theorem WellFormed.refs_eq_zero (hwf : WellFormed fs) {i j m : ℕ} (hi : i < 200) (hj : j < 200)
    (hne : i ≠ j) (hm : 0 < fs.refs j m) : fs.refs i m = 0 := by
  have hone : fs.owners m ≤ 1 := (hwf.accounts m).1
  have hsum : fs.refs i m + fs.refs j m ≤ fs.owners m := by
    rw [Fs.owners, ← Finset.add_sum_erase _ _ (Finset.mem_range.mpr hi)]
    apply Nat.add_le_add_left
    exact Finset.single_le_sum (f := fun i => fs.refs i m) (fun _ _ => Nat.zero_le _)
      (Finset.mem_erase.mpr ⟨hne.symm, Finset.mem_range.mpr hj⟩)
  omega

section Frame

variable (hwf : WellFormed fs) (halloc : fs.Allocated inum) (h : FileWritten fs inum c n fs')

include hwf halloc h

/-- A block of another file keeps its contents. -/
theorem FileWritten.disk_of_refs {j m : ℕ} (hj : j < 200) (hne : j ≠ inum) (hm : 0 < fs.refs j m) :
    fs'.disk m = fs.disk m := by
  have hinum : inum < 200 := hwf.layout.ninodes ▸ halloc.1
  have hlt := hwf.layout.inodeBlock_lt hinum
  have howned : 0 < fs.owners m := hm.trans_le (Fs.refs_le_owners hj m)
  have hdata := ((hwf.accounts m).2 howned).1.1
  have hnotfree : m ∉ fs.taken inum c := fun hmem =>
    howned.ne' (hwf.accounts.eq_zero_of_free (List.mem_of_mem_take hmem))
  apply h.frame m (by omega) (by omega)
  rw [h.owned m, hwf.refs_eq_zero hinum hj hne.symm hm, List.count_eq_zero_of_not_mem hnotfree]

/-- Blocks in front of the inode table keep their contents: the superblock and the log. -/
theorem FileWritten.disk_of_lt {m : ℕ} (hm : m < fs.su.sinode) : fs'.disk m = fs.disk m := by
  have hinum : inum < 200 := hwf.layout.ninodes ▸ halloc.1
  have hlt := hwf.layout.inodeBlock_lt hinum
  apply h.frame m (by omega) (by omega)
  have hout : m ∉ fs.taken inum c := by
    intro hmem
    have hdata := (of_mem_freeBlocks (List.mem_of_mem_take hmem)).1.1
    omega
  have hle : fs.refs inum m ≤ fs.owners m := Fs.refs_le_owners hinum m
  rw [hwf.owners_eq_zero (by omega)] at hle
  rw [h.owned m, List.count_eq_zero_of_not_mem hout]
  omega

/-- The blocks of another file agree with what its inode reached before. -/
theorem FileWritten.frame_other {j : ℕ} (hj : j < 200) (hne : j ≠ inum)
    (hused : (fs.dinode j).type ≠ 0) (m : ℕ)
    (hm : 0 < PointerForest.refs Block.ptrs fs.disk (fs.dinode j).forest m) :
    fs'.disk m = fs.disk m :=
  h.disk_of_refs hwf halloc hj hne (by rwa [Fs.refs, if_neg hused])

/-- A write keeps the references of the other files. -/
theorem FileWritten.refs_other {j : ℕ} (hj : j < 200) (hne : j ≠ inum) (m : ℕ) :
    fs'.refs j m = fs.refs j m := by
  by_cases hused : (fs.dinode j).type = 0
  · rw [Fs.refs_of_free hused, Fs.refs_of_free (by rw [h.others j hj hne, hused])]
  · rw [Fs.refs, Fs.refs, h.others j hj hne, if_neg hused, if_neg hused,
      refs_frame (h.frame_other hwf halloc hj hne hused)]

/-- A write maps no block of another file differently. -/
theorem FileWritten.fileBlock_other {j : ℕ} (hj : j < 200) (hne : j ≠ inum)
    (hused : (fs.dinode j).type ≠ 0) (k : ℕ) : fs'.fileBlock j k = fs.fileBlock j k := by
  rw [Fs.fileBlock, Fs.fileBlock, h.others j hj hne,
    lookup_frame (h.frame_other hwf halloc hj hne hused)]

/-- A write leaves the contents of the other files alone. -/
theorem FileWritten.content_other {j : ℕ} (hj : j < 200) (hne : j ≠ inum)
    (hused : (fs.dinode j).type ≠ 0) (x : ℕ) : fs'.content j x = fs.content j x := by
  rw [Fs.content, Fs.content, h.fileBlock_other hwf halloc hj hne hused]
  by_cases hnull : fs.fileBlock j (x / 512) = 0
  · rw [if_pos hnull, if_pos hnull]
  · have hblock : fs'.disk (fs.fileBlock j (x / 512)) = fs.disk (fs.fileBlock j (x / 512)) :=
      h.frame_other hwf halloc hj hne hused _ (refs_lookup hnull)
    rw [if_neg hnull, if_neg hnull, hblock]

/-- A write adds the blocks it takes to the owned ones. -/
theorem FileWritten.owners_eq (m : ℕ) :
    fs'.owners m = fs.owners m + (fs.taken inum c).count m := by
  have hinum : inum < 200 := hwf.layout.ninodes ▸ halloc.1
  rw [Fs.owners, Fs.owners, ← Finset.add_sum_erase _ _ (Finset.mem_range.mpr hinum),
    ← Finset.add_sum_erase _ (fun i => fs.refs i m) (Finset.mem_range.mpr hinum), h.owned m]
  have hrest : ∑ i ∈ (Finset.range 200).erase inum, fs'.refs i m =
      ∑ i ∈ (Finset.range 200).erase inum, fs.refs i m := by
    apply Finset.sum_congr rfl
    intro j hj
    obtain ⟨hne, hj⟩ := Finset.mem_erase.mp hj
    exact h.refs_other hwf halloc (Finset.mem_range.mp hj) hne m
  rw [hrest]
  omega

/-- A write keeps the file system well formed. -/
theorem FileWritten.wellFormed : WellFormed fs' where
  init := h.init_eq ▸ hwf.init
  layout := h.su_eq ▸ hwf.layout
  accounts := by
    rw [h.su_eq]
    intro m
    have hold := hwf.accounts m
    rw [h.owners_eq hwf halloc m]
    by_cases hmem : m ∈ fs.taken inum c
    · have hfree := List.mem_of_mem_take hmem
      have hzero := hwf.accounts.eq_zero_of_free hfree
      have hone := List.nodup_iff_count_le_one.mp
        ((nodup_freeBlocks fs.su fs.disk).sublist (List.take_sublist (fs.need inum c).length _)) m
      have hdata := (of_mem_freeBlocks hfree).1
      refine ⟨by rw [hzero, Nat.zero_add]; exact hone, fun _ => ⟨hdata, ?_⟩⟩
      rw [h.marked m hdata.1, decide_eq_true hmem, Bool.or_true]
    · rw [List.count_eq_zero_of_not_mem hmem, Nat.add_zero]
      refine ⟨hold.1, fun hpos => ?_⟩
      obtain ⟨hdata, hmarked⟩ := hold.2 hpos
      refine ⟨hdata, ?_⟩
      rw [h.marked m hdata.1, hmarked, Bool.true_or]

/-- A data block that is marked is owned after a write if this was so before. -/
theorem FileWritten.owned_of_marked {m : ℕ} (hdata : fs.su.InData m)
    (hold : Hobby386.marked fs.su fs.disk m = true → fs.owners m = 1)
    (hm : Hobby386.marked fs'.su fs'.disk m = true) : fs'.owners m = 1 := by
  have hle := ((h.wellFormed hwf halloc).accounts m).1
  rw [h.su_eq, h.marked m hdata.1, Bool.or_eq_true, decide_eq_true_eq] at hm
  rw [h.owners_eq hwf halloc m] at hle ⊢
  rcases hm with hm | hm
  · have hone := hold hm
    omega
  · have hcount := List.count_pos_iff.mpr hm
    omega

end Frame

end Hobby386
