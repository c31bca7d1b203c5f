import Hobby386.Fs.Lookup
import Hobby386.Fs.ReadCount
import Hobby386.Fs.WriteContent

/-!
# Negative sizes

`inode_rw` compares the bits of its size argument with 0xefffffff, which the source takes for the
largest signed integer. The sizes from -268435456 to -1 are refused. The smaller ones are taken for
sizes of two to four gigabytes, clipped to the file by a read and to the free blocks by a write.
-/

namespace Hobby386

/-- `fs_read` returns -1 and leaves the disk and the buffer. -/
def RejectsRead (fs : Fs) (inum : ℕ) (buf : Memory) (sz : ℤ) (off : ℕ) : Prop :=
  ∃ fs', fsRead fs inum buf sz off = .ok (-1, buf, fs') ∧ fs'.disk = fs.disk

/-- `fs_write` returns -1 and leaves the disk. -/
def RejectsWrite (fs : Fs) (inum : ℕ) (buf : Memory) (sz : ℤ) (off : ℕ) : Prop :=
  ∃ fs', fsWrite fs inum buf sz off = .ok (-1, fs') ∧ fs'.disk = fs.disk

variable {fs : Fs} {inum : ℕ} {sz : ℤ} {off : ℕ}

/-- The sizes that the comparison refuses. -/
theorem bits32_neg (hmin : -2147483648 ≤ sz) (hneg : sz < 0) :
    0xefffffff < bits32 sz ↔ -268435456 ≤ sz := by
  rw [bits32]
  omega

/-- A size that is refused and an inode that is not there leave everything but the messages. -/
theorem inodeRw_rejects (hinit : fs.init = true) (h : 0xefffffff < bits32 sz ∨ fs.su.ninodes ≤ inum)
    (buf : Memory) (off : ℕ) (w : Bool) :
    ∃ fs', inodeRw bitmapAlloc fs inum buf sz off w = .ok (-1, buf, fs') ∧ fs'.disk = fs.disk := by
  simp only [inodeRw, hinit, Bool.not_true, Bool.false_eq_true, if_false]
  by_cases hbits : 0xefffffff < bits32 sz
  · rw [if_pos hbits]
    exact ⟨_, rfl, rfl⟩
  · have hread : readInode fs inum = (none, fs.printf "inum %d out of bounds\n" [.num inum]) := by
      rw [readInode, rwInode, hinit]
      simp [h.resolve_left hbits]
    rw [if_neg hbits, hread]
    exact ⟨_, rfl, rfl⟩

/-- A count of at most 0xefffffff bytes is not the result -1. -/
theorem int32_count_ne {n : ℕ} (hn : n ≤ 0xefffffff) (left : ℕ) (hleft : left ≤ n) :
    int32 (sub32 n left) ≠ -1 := by
  have hcount : sub32 n left = n - left := by
    rw [sub32, show n + (4294967296 - left) = n - left + 4294967296 by omega, u32, Nat.add_mod_right]
    exact Nat.mod_eq_of_lt (by omega)
  rw [hcount, int32]
  split <;> omega

/-- A size that is not refused is never answered by -1 when the inode is there. -/
theorem inodeRw_accepts (hinit : fs.init = true) (hbits : bits32 sz ≤ 0xefffffff)
    (hinum : inum < fs.su.ninodes) {buf : Memory} {w : Bool} {r : ℤ × Memory × Fs}
    (h : inodeRw bitmapAlloc fs inum buf sz off w = .ok r) :
    r.1 ≠ -1 := by
  obtain ⟨di, hread⟩ : ∃ di, readInode fs inum = (some di, fs) := by
    rw [readInode, rwInode, hinit]
    simp [Nat.not_le.mpr hinum]
  simp only [inodeRw, hinit, Bool.not_true, Bool.false_eq_true, if_false,
    if_neg (Nat.not_lt.mpr hbits), hread] at h
  split at h
  · cases h
    exact (by decide : (0 : ℤ) ≠ -1)
  · rename_i hbehind
    -- neither the request nor the clipped request is longer than the accepted sizes
    have hclip : (if w = false ∧ di.size ≤ u32 (off + bits32 sz) then di.size - off else bits32 sz) ≤
        0xefffffff := by
      split
      · rename_i hclip
        have hend := hclip.2
        have hstart : off < di.size := Nat.not_le.mp fun hle => hbehind ⟨hclip.1, hle⟩
        rw [u32] at hend
        omega
      · exact hbits
    rw [bind_eq_ok] at h
    obtain ⟨t, hloop, h⟩ := h
    have hsum := keepsSum_loop (fun i => keepsSum_recursiveRw bitmapAlloc (getIlevel i)) hloop
    have hcount := int32_count_ne hclip t.sa.left (by dsimp only at hsum; omega)
    split at h
    · split at h
      · cases h
      · cases h
        exact hcount
    · cases h
      exact hcount

/-- A negative size is rejected if and only if it is at least -268435456 or the inode is not there. -/
theorem negative_rejected_iff (hinit : fs.init = true) (inum : ℕ) (buf : Memory) (off : ℕ)
    (hmin : -2147483648 ≤ sz) (hneg : sz < 0) :
    (RejectsRead fs inum buf sz off ↔ -268435456 ≤ sz ∨ fs.su.ninodes ≤ inum) ∧
    (RejectsWrite fs inum buf sz off ↔ -268435456 ≤ sz ∨ fs.su.ninodes ≤ inum) := by
  rw [← bits32_neg hmin hneg]
  constructor
  · refine ⟨fun ⟨fs', hrun, _⟩ => ?_, fun h => inodeRw_rejects hinit h buf off false⟩
    by_contra hnot
    rw [not_or, Nat.not_lt, Nat.not_le] at hnot
    exact inodeRw_accepts hinit hnot.1 hnot.2 hrun rfl
  · refine ⟨fun ⟨fs', hrun, _⟩ => ?_, fun h => ?_⟩
    · by_contra hnot
      rw [not_or, Nat.not_lt, Nat.not_le] at hnot
      rw [fsWrite, bind_eq_ok] at hrun
      obtain ⟨r, hrw, hr⟩ := hrun
      exact inodeRw_accepts hinit hnot.1 hnot.2 hrw (congrArg Prod.fst (Except.ok.inj hr))
    · obtain ⟨fs', hrun, hdisk⟩ := inodeRw_rejects hinit h buf off true
      exact ⟨fs', by rw [fsWrite, hrun]; rfl, hdisk⟩

/-- The least integer is taken for the size of a read of 512 bytes, which overwrites the buffer, and
of a write that fills the disk. -/
theorem negative_not_rejected :
    (staleFree.init = true ∧ 2 < staleFree.su.ninodes) ∧
    (fsRead staleFree 2 (fun _ => 1) (-2147483648) 0).map (fun r => (r.1, r.2.1 0)) = .ok (512, 0) ∧
    (fsWrite staleFree 2 (fun _ => 1) (-2147483648) 0).map (fun r => (r.1, (r.2.disk 57).get 0)) =
    .ok (4096, 1) ∧
    ¬RejectsRead staleFree 2 (fun _ => 1) (-2147483648) 0 ∧
    ¬RejectsWrite staleFree 2 (fun _ => 1) (-2147483648) 0 := by
  have hread : (fsRead staleFree 2 (fun _ => 1) (-2147483648) 0).map (fun r => (r.1, r.2.1 0)) =
      .ok (512, 0) := by
    decide +kernel
  have hwrite : (fsWrite staleFree 2 (fun _ => 1) (-2147483648) 0).map
      (fun r => (r.1, (r.2.disk 57).get 0)) = .ok (4096, 1) := by
    decide +kernel
  refine ⟨by decide, hread, hwrite, ?_, ?_⟩
  · rintro ⟨fs', hrun, -⟩
    rw [hrun] at hread
    have hret : (-1 : ℤ) = 512 := congrArg Prod.fst (Except.ok.inj hread)
    exact absurd hret (by decide)
  · rintro ⟨fs', hrun, -⟩
    rw [hrun] at hwrite
    have hret : (-1 : ℤ) = 4096 := congrArg Prod.fst (Except.ok.inj hwrite)
    exact absurd hret (by decide)

/-- The characterisation at the size -1. -/
theorem negative_rejected_iff_minus_one :
    (RejectsRead staleFree 2 (fun _ => 1) (-1) 0 ↔ -268435456 ≤ (-1 : ℤ) ∨ staleFree.su.ninodes ≤ 2) ∧
    (RejectsWrite staleFree 2 (fun _ => 1) (-1) 0 ↔ -268435456 ≤ (-1 : ℤ) ∨ staleFree.su.ninodes ≤ 2) :=
  negative_rejected_iff (show staleFree.init = true from rfl) 2 (fun _ => 1) 0 (by decide) (by decide)

end Hobby386
