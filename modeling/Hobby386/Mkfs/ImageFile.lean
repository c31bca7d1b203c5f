import Hobby386.Fs.Format

/-!
# The image file

The disk functions of `mkfs` seek to the byte offset of a block, which they compute in an `int`. Up
to a partition that ends below block 2²² they read and write the blocks of an array; further on the
offset is negative, and the assertion fails, or it is that of another block.
-/

namespace Hobby386.Mkfs

/-- The image: so many bytes. -/
structure ImageFile where
  size : ℕ
  bytes : ℕ → UInt8

/-- The `int` `n * BLOCKSIZE`. -/
def seekOffset (n : ℕ) : ℤ := int32 (u32 (n * blockSize))

/-- `disk_read`. It asserts that `lseek` goes to the offset and that `read` gets a whole block. -/
def ImageFile.diskRead (f : ImageFile) (n : ℕ) : Except Fault Block :=
  let off := seekOffset n
  if off < 0 then .error .panic
  else if f.size < off.toNat + blockSize then .error .panic
  else .ok (.ofFn fun i => f.bytes (off.toNat + i))

/-- `disk_write`. -/
def ImageFile.diskWrite (f : ImageFile) (n : ℕ) (b : Block) : Except Fault ImageFile :=
  let off := seekOffset n
  if off < 0 then .error .panic
  else .ok ⟨max f.size (off.toNat + blockSize),
    fun i => if off.toNat ≤ i ∧ i < off.toNat + blockSize then b.get (i - off.toNat) else f.bytes i⟩

/-- The array of the blocks in the image. -/
def ImageFile.disk (f : ImageFile) : Disk := fun n => .ofFn fun i => f.bytes (blockSize * n + i)

/-- A partition that `mkfs` can work on: the offsets of its blocks are `int`s. -/
structure Seekable (p : Partition) : Prop extends p.Usable where
  offsets : p.startlba + p.nsectors ≤ 4194304

/-- The offset is that of the block exactly below block 2²². -/
theorem seekOffset_eq_iff {n : ℕ} (hn : n < 4294967296) : seekOffset n = blockSize * n ↔
    n < 4194304 := by
  rw [seekOffset, int32, u32]
  simp only [blockSize]
  split <;> omega

variable {p : Partition} {f : ImageFile} {n : ℕ}

/-- The blocks of the partition are at their offsets. -/
theorem Seekable.seekOffset_eq (hp : Seekable p) (hn : p.Contains n) :
    seekOffset n = ((blockSize * n : ℕ) : ℤ) := by
  have hend := hp.offsets
  have hlt : n < p.startlba + p.nsectors := hn.2
  rw [(seekOffset_eq_iff (by omega)).mpr (by omega)]
  push_cast
  rfl

/-- In an image that reaches to the end of the partition its blocks are read from the array. -/
theorem Seekable.diskRead (hp : Seekable p) (hsize : blockSize * (p.startlba + p.nsectors) ≤ f.size)
    (hn : p.Contains n) : f.diskRead n = .ok (f.disk n) := by
  have hlt : n < p.startlba + p.nsectors := hn.2
  have hroom : blockSize * n + blockSize ≤ f.size := by
    simp only [blockSize] at hsize ⊢
    omega
  rw [ImageFile.diskRead, hp.seekOffset_eq hn, if_neg (Int.not_lt.mpr (Int.natCast_nonneg _)),
    Int.toNat_natCast, if_neg (Nat.not_lt.mpr hroom)]
  rfl

/-- They are written to the array, and the image keeps its size. -/
theorem Seekable.diskWrite (hp : Seekable p) (hsize : blockSize * (p.startlba + p.nsectors) ≤ f.size)
    (hn : p.Contains n) (b : Block) :
    ∃ f', f.diskWrite n b = .ok f' ∧ f'.size = f.size ∧ f'.disk = Function.update f.disk n b := by
  have hlt : n < p.startlba + p.nsectors := hn.2
  have hroom : blockSize * n + blockSize ≤ f.size := by
    simp only [blockSize] at hsize ⊢
    omega
  rw [ImageFile.diskWrite, hp.seekOffset_eq hn, if_neg (Int.not_lt.mpr (Int.natCast_nonneg _)),
    Int.toNat_natCast]
  refine ⟨_, rfl, max_eq_left hroom, funext fun k => Block.ext_get fun i hi => ?_⟩
  rw [ImageFile.disk, Block.get_ofFn _ hi]
  simp only [blockSize]
  by_cases hk : k = n
  · rw [hk, Function.update_self, if_pos (by omega), Nat.add_sub_cancel_left]
  · rw [Function.update_of_ne hk, ImageFile.disk, Block.get_ofFn _ hi, if_neg (by omega)]

/-- Block 2²³ has the offset of the first sector. -/
example : seekOffset 8388608 = seekOffset 0 ∧ seekOffset 4194304 < 0 := by decide

end Hobby386.Mkfs
