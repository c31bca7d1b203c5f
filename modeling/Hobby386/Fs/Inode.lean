import Hobby386.Fs.Bitmap

/-!
# The inode table

Reading, writing, allocating and freeing inodes. Eight inodes share a block, so every update
reads the block, patches one slot and writes the block back; on a sound layout this is the
update of one entry of a table indexed by inode number.
-/

namespace Hobby386

/-- `rw_inode`; with `w` set it stores `*p` first. The result is what the call leaves in `*p`, and
`none` stands for the return value -1. -/
def rwInode (fs : Fs) (inum : ℕ) (p : Dinode) (w : Bool) : Option Dinode × Fs :=
  if !fs.init then (none, fs.printf "uninitialized\n" [])
  else if fs.su.ninodes ≤ inum then (none, fs.printf "inum %d out of bounds\n" [.num inum])
  else
    let n := u32 (fs.su.sinode + inum / ninodesPerBlock)
    let b := fs.diskRead n
    if w then
      let b := b.setInode (inum % ninodesPerBlock) p
      (some (b.inode (inum % ninodesPerBlock)), fs.diskWrite n b)
    else (some (b.inode (inum % ninodesPerBlock)), fs)

/-- `read_inode`. -/
def readInode (fs : Fs) (inum : ℕ) : Option Dinode × Fs := rwInode fs inum .zero false

/-- `write_inode`. -/
def writeInode (fs : Fs) (inum : ℕ) (p : Dinode) : Option Dinode × Fs := rwInode fs inum p true

/-- `fs_geti`. -/
def fsGeti (fs : Fs) (inum : ℕ) : Option Dinode × Fs := readInode fs inum

/-- `get_ilevel`: the indirection level of an entry of the `ptrs` array of an inode. -/
def getIlevel (i : ℕ) : ℕ :=
  if i < ndirect then 0 else if i < ndirect + nindirect then 1 else 2

/-- No pointer is more than doubly indirect. -/
theorem getIlevel_le (i : ℕ) : getIlevel i ≤ 2 := by
  rw [getIlevel]
  split
  · decide
  · split <;> decide

/-- The loops that free every nonzero pointer of an array, the first one having index `i`. -/
def freePtrs (free : (i p : ℕ) → Fs → Except Fault Fs) : (i : ℕ) → List ℕ → Fs → Except Fault Fs
  | _, [], fs => .ok fs
  | i, p :: ps, fs => do
    let fs ← if p = 0 then .ok fs else free i p fs
    freePtrs free (i + 1) ps fs

/-- `free_indirect`. At level 0 the assertion demands a nonzero result of `bitmap_free`, above it
a zero one. -/
def freeIndirect : (ilevel n : ℕ) → Fs → Except Fault Fs
  | 0, n, fs => do
    let r ← bitmapFree fs n
    if r.1 then .error .panic else .ok r.2
  | ilevel + 1, n, fs => do
    let b := fs.diskRead n
    let r ← bitmapFree fs n
    if r.1 then freePtrs (fun _ => freeIndirect ilevel) 0 b.ptrs r.2 else .error .panic

/-- `free_inode`: `true` for the return value 0. -/
def freeInode (fs : Fs) (n : ℕ) : Except Fault (Bool × Fs) :=
  if !fs.init then .ok (false, fs.printf "uninitialized\n" [])
  else
    match readInode fs n with
    | (none, fs) => .ok (false, fs)
    | (some di, fs) => do
      let di := { di with type := 0 }
      let fs ← freePtrs (fun i => freeIndirect (getIlevel i)) 0 di.ptrs fs
      .ok (true, (writeInode fs n di).2)

/-- The loop of `alloc_inode` over the next `n` inode blocks from block `i` on. -/
def allocInodeFrom (fs : Fs) (type : ℕ) : (i n : ℕ) → ℕ × Fs
  | _, 0 => (nullInum, fs.printf "alloc_inode: Out of inodes\n" [])
  | i, n + 1 =>
    let b := fs.diskRead (u32 (i + fs.su.sinode))
    match (List.range ninodesPerBlock).find? fun j => (b.inode j).type = 0 with
    | some j =>
      (u32 (i * ninodesPerBlock + j),
        fs.diskWrite (u32 (i + fs.su.sinode)) (b.setInode j { Dinode.zero with type := type }))
    | none => allocInodeFrom fs type (i + 1) n

/-- `alloc_inode`. -/
def allocInode (fs : Fs) (type : ℕ) : ℕ × Fs :=
  if tDev < type then (nullInum, fs.printf "alloc_inode: %d: Invalid type\n" [.num type])
  else allocInodeFrom fs type 0 fs.su.nblockInode

/-! ## The table seen from outside -/

/-- The inode with a given number, as stored on the disk. -/
def Fs.dinode (fs : Fs) (i : ℕ) : Dinode := (fs.disk (fs.su.sinode + i / 8)).inode (i % 8)

/-- Store an inode, leaving the other seven of its block alone. -/
def Fs.setDinode (fs : Fs) (i : ℕ) (di : Dinode) : Fs :=
  fs.diskWrite (fs.su.sinode + i / 8) ((fs.disk (fs.su.sinode + i / 8)).setInode (i % 8) di)

/-- Storing an inode leaves the superblock in memory alone. -/
@[simp] theorem Fs.setDinode_su (fs : Fs) (i : ℕ) (di : Dinode) : (fs.setDinode i di).su = fs.su := rfl

/-- An inode that has been read fits its fields. -/
theorem Fs.fits_dinode (fs : Fs) (i : ℕ) : (fs.dinode i).Fits := Block.fits_inode _ _

/-- A stored inode reads back. -/
theorem Fs.dinode_setDinode {fs : Fs} {i : ℕ} {di : Dinode} (hfit : di.Fits) :
    (fs.setDinode i di).dinode i = di := by
  rw [Fs.dinode, Fs.setDinode, Fs.diskWrite_su, Fs.diskWrite_disk_self]
  exact Block.inode_setInode (by omega) hfit

/-- Storing an inode leaves the others alone. -/
theorem Fs.dinode_setDinode_of_ne {fs : Fs} {i j : ℕ} {di : Dinode} (hne : j ≠ i) :
    (fs.setDinode i di).dinode j = fs.dinode j := by
  rw [Fs.dinode, Fs.setDinode, Fs.diskWrite_su, Fs.dinode]
  by_cases hblock : j / 8 = i / 8
  · rw [hblock, Fs.diskWrite_disk_self]
    exact Block.inode_setInode_of_ne (by omega) (by omega)
  · rw [Fs.diskWrite_disk_of_ne (by omega)]

/-- Storing an inode touches its own block only. -/
theorem Fs.setDinode_disk_of_ne {fs : Fs} {i n : ℕ} {di : Dinode} (hne : n ≠ fs.su.sinode + i / 8) :
    (fs.setDinode i di).disk n = fs.disk n := Fs.diskWrite_disk_of_ne hne

/-- The table depends on the inode blocks only. -/
theorem Fs.dinode_congr {fs fs' : Fs} {i : ℕ} (hsu : fs'.su = fs.su)
    (h : fs'.disk (fs.su.sinode + i / 8) = fs.disk (fs.su.sinode + i / 8)) :
    fs'.dinode i = fs.dinode i := by
  rw [Fs.dinode, Fs.dinode, hsu, h]

section Table

variable {fs : Fs} (hinit : fs.init = true) (hlayout : fs.su.Layout)

include hlayout in
/-- Inode blocks are addressed without wrap-around. -/
theorem inodeBlock_eq {i : ℕ} (hi : i < 200) :
    u32 (fs.su.sinode + i / 8) = fs.su.sinode + i / 8 := by
  have hsinode := hlayout.sinode
  have hsdata := hlayout.sdata
  have hfits := hlayout.fits
  exact u32_of_lt (by omega)

include hinit hlayout in
/-- `read_inode` of a valid number. -/
theorem readInode_eq {i : ℕ} (hi : i < 200) : readInode fs i = (some (fs.dinode i), fs) := by
  have hn := hlayout.ninodes
  simp only [readInode, rwInode, hinit, Bool.not_true, Bool.false_eq_true, if_false, hn,
    if_neg (Nat.not_le.mpr hi), inodeBlock_eq hlayout hi, Fs.diskRead, Fs.dinode]

include hinit hlayout in
/-- `write_inode` of a valid number. -/
theorem writeInode_eq {i : ℕ} {di : Dinode} (hi : i < 200) (hfit : di.Fits) :
    writeInode fs i di = (some di, fs.setDinode i di) := by
  have hn := hlayout.ninodes
  have hread : ((fs.disk (fs.su.sinode + i / 8)).setInode (i % 8) di).inode (i % 8) = di :=
    Block.inode_setInode (by omega) hfit
  simp only [writeInode, rwInode, hinit, Bool.not_true, Bool.false_eq_true, if_false, hn,
    if_neg (Nat.not_le.mpr hi), inodeBlock_eq hlayout hi, Fs.diskRead, if_true, hread, Fs.setDinode]

include hlayout in
/-- The loop over the inode blocks takes the first inode of type 0. -/
theorem allocInodeFrom_cases (type : ℕ) {i n : ℕ} (hin : i + n ≤ 25) :
    (∃ m, 8 * i ≤ m ∧ m < 8 * (i + n) ∧ (fs.dinode m).type = 0 ∧
      (∀ j, 8 * i ≤ j → j < m → (fs.dinode j).type ≠ 0) ∧
      allocInodeFrom fs type i n = (m, fs.setDinode m { Dinode.zero with type := type })) ∨
    ((∀ j, 8 * i ≤ j → j < 8 * (i + n) → (fs.dinode j).type ≠ 0) ∧
      allocInodeFrom fs type i n = (0, fs.printf "alloc_inode: Out of inodes\n" [])) := by
  induction n generalizing i with
  | zero => exact .inr ⟨fun j hj hj' => absurd hj' (by omega), rfl⟩
  | succ n ih =>
    have hblock : u32 (i + fs.su.sinode) = fs.su.sinode + i := by
      have hsinode := hlayout.sinode
      have hsdata := hlayout.sdata
      have hfits := hlayout.fits
      rw [u32_of_lt (by omega), Nat.add_comm]
    have hslot (j : ℕ) (hj : j < 8) : fs.dinode (8 * i + j) = (fs.disk (fs.su.sinode + i)).inode j := by
      rw [Fs.dinode, show (8 * i + j) / 8 = i by omega, show (8 * i + j) % 8 = j by omega]
    cases hfind : (List.range 8).find? fun j => ((fs.disk (fs.su.sinode + i)).inode j).type = 0 with
    | some j =>
      have hfound := hfind
      rw [List.find?_range_eq_some] at hfound
      obtain ⟨hzero, hj, hleast⟩ := hfound
      rw [List.mem_range] at hj
      left
      refine ⟨8 * i + j, by omega, by omega, ?_, ?_, ?_⟩
      · rw [hslot j hj]
        simpa using hzero
      · intro a ha ha'
        have hne := hleast (a - 8 * i) (by omega)
        rw [show a = 8 * i + (a - 8 * i) by omega, hslot _ (by omega)]
        simpa using hne
      · simp only [allocInodeFrom, hblock, Fs.diskRead, hfind, Fs.setDinode,
          show (8 * i + j) / 8 = i by omega, show (8 * i + j) % 8 = j by omega]
        rw [u32_of_lt (by simp only [ninodesPerBlock]; omega), Nat.mul_comm]
    | none =>
      have hnone : ∀ j < 8, (fs.dinode (8 * i + j)).type ≠ 0 := by
        intro j hj
        rw [hslot j hj]
        simpa using (List.find?_eq_none.mp hfind) j (List.mem_range.mpr hj)
      have hskip (j : ℕ) (hj : 8 * i ≤ j) (hj' : j < 8 * (i + 1)) : (fs.dinode j).type ≠ 0 := by
        rw [show j = 8 * i + (j - 8 * i) by omega]
        exact hnone _ (by omega)
      have hstep : allocInodeFrom fs type i (n + 1) = allocInodeFrom fs type (i + 1) n := by
        simp only [allocInodeFrom, hblock, Fs.diskRead, hfind]
      rw [hstep]
      rcases ih (show i + 1 + n ≤ 25 by omega) with ⟨m, hm, hm', hzero, hleast, heq⟩ | ⟨hall, heq⟩
      · refine .inl ⟨m, by omega, by omega, hzero, fun j hj hj' => ?_, heq⟩
        rcases Nat.lt_or_ge j (8 * (i + 1)) with hlt | hge
        · exact hskip j hj hlt
        · exact hleast j hge hj'
      · refine .inr ⟨fun j hj hj' => ?_, heq⟩
        rcases Nat.lt_or_ge j (8 * (i + 1)) with hlt | hge
        · exact hskip j hj hlt
        · exact hall j hge (by omega)

include hlayout in
/-- `alloc_inode` takes the first inode of type 0, or leaves the disk alone and returns 0. -/
theorem allocInode_cases (type : ℕ) :
    (∃ m < 200, type ≤ 3 ∧ (fs.dinode m).type = 0 ∧ (∀ j < m, (fs.dinode j).type ≠ 0) ∧
      allocInode fs type = (m, fs.setDinode m { Dinode.zero with type := type })) ∨
    ((3 < type ∨ ∀ j < 200, (fs.dinode j).type ≠ 0) ∧
      ∃ fmt args, allocInode fs type = (0, fs.printf fmt args)) := by
  by_cases htype : 3 < type
  · exact .inr ⟨.inl htype, _, _, if_pos htype⟩
  · rw [allocInode, if_neg htype, hlayout.nblockInode]
    rcases allocInodeFrom_cases hlayout type (show 0 + 25 ≤ 25 by omega) with
      ⟨m, -, hm, hzero, hleast, heq⟩ | ⟨hall, heq⟩
    · exact .inl ⟨m, by omega, by omega, hzero, fun j hj => hleast j (by omega) hj, heq⟩
    · exact .inr ⟨.inr fun j hj => hall j (by omega) (by omega), _, _, heq⟩

/-- Freeing the pointers of an array of null pointers does nothing. -/
theorem freePtrs_null (free : (i p : ℕ) → Fs → Except Fault Fs) (i m : ℕ) (fs : Fs) :
    freePtrs free i (List.replicate m 0) fs = .ok fs := by
  induction m generalizing i with
  | zero => rfl
  | succ m ih => exact ih (i + 1)

include hinit hlayout in
/-- Freeing an inode without blocks clears its type. -/
theorem freeInode_of_null {i : ℕ} (hi : i < 200) (hnull : (fs.dinode i).ptrs = List.replicate 13 0) :
    freeInode fs i = .ok (true, fs.setDinode i { fs.dinode i with type := 0 }) := by
  have hfit : ({ fs.dinode i with type := 0 } : Dinode).Fits :=
    { fs.fits_dinode i with type := by simp }
  simp only [freeInode, hinit, Bool.not_true, Bool.false_eq_true, if_false,
    readInode_eq hinit hlayout hi, hnull, freePtrs_null, ok_bind]
  rw [← hnull, writeInode_eq hinit hlayout hi hfit]

end Table

end Hobby386
