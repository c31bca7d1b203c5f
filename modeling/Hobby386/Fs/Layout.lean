import Hobby386.Lib.LittleEndian
import Mathlib.Data.List.GetD
import Mathlib.Data.List.OfFn
import Mathlib.Tactic.IntervalCases

/-!
# The on-disk format of the file system

The structures of `kernel/include/fs.h`. A block is 512 raw bytes, and the superblock,
the inodes, the directory entries and the block pointers are little-endian views of these
bytes, as in `union block`. Every view has a setter, and reading a view after writing it
gives the value back whenever the value fits the widths of its C fields.
-/

namespace Hobby386

open LittleEndian

@[simp] abbrev blockSize : ℕ := 512
@[simp] abbrev nblocksLog : ℕ := 30
@[simp] abbrev ninodesFixed : ℕ := 200
@[simp] abbrev fsMagic : ℕ := 0xdeadbeef
@[simp] abbrev nullInum : ℕ := 0
@[simp] abbrev rootInum : ℕ := 1
@[simp] abbrev ndirect : ℕ := 10
@[simp] abbrev nindirect : ℕ := 2
@[simp] abbrev ndindirect : ℕ := 1
/-- All pointers of an inode: direct, singly-indirect and doubly-indirect. -/
@[simp] abbrev nptrs : ℕ := ndirect + nindirect + ndindirect
@[simp] abbrev ninodesPerBlock : ℕ := 8
@[simp] abbrev nptrsPerBlock : ℕ := 128
@[simp] abbrev maxName : ℕ := 14
@[simp] abbrev direntSize : ℕ := 16
@[simp] abbrev tReg : ℕ := 1
@[simp] abbrev tDir : ℕ := 2
@[simp] abbrev tDev : ℕ := 3

/-- `union block`: the raw bytes of one disk block. -/
@[ext] structure Block where
  bytes : Fin blockSize → UInt8

/-- The byte at an offset of a block. -/
def Block.get (b : Block) (i : ℕ) : UInt8 := if h : i < blockSize then b.bytes ⟨i, h⟩ else 0

/-- The block whose byte at each offset is given by `f`. -/
def Block.ofFn (f : ℕ → UInt8) : Block := ⟨fun i => f i⟩

/-- The block of zero bytes. -/
def Block.zero : Block := .ofFn fun _ => 0

/-- The bytes of a block given by a function. -/
theorem Block.get_ofFn (f : ℕ → UInt8) {i : ℕ} (hi : i < 512) : (Block.ofFn f).get i = f i := by
  simp [Block.get, Block.ofFn, hi]

/-- Blocks are equal as soon as their 512 bytes are. -/
theorem Block.ext_get {b c : Block} (h : ∀ i < 512, b.get i = c.get i) : b = c := by
  apply Block.ext
  funext i
  simpa [Block.get, i.isLt] using h i i.isLt

/-- The bytes of the zero block. -/
@[simp] theorem Block.get_zero (i : ℕ) : Block.zero.get i = 0 := by
  simp [Block.get, Block.zero, Block.ofFn]

/-! ## The `ptrs` view of an indirect block -/

/-- `b.ptrs[i]`. -/
def Block.ptr (b : Block) (i : ℕ) : ℕ := value b.get 4 (4 * i)

/-- `b.ptrs`, all of it. -/
def Block.ptrs (b : Block) : List ℕ := (List.range nptrsPerBlock).map b.ptr

/-- The block whose `ptrs` view is the given array. -/
def Block.ofPtrs (ps : List ℕ) : Block := .ofFn fun i => byte (ps.getD (i / 4) 0) (i % 4)

/-- A block has 128 pointers. -/
@[simp] theorem Block.ptrs_length (b : Block) : b.ptrs.length = 128 := by simp [Block.ptrs]

/-- Every stored pointer is a 32-bit number. -/
theorem Block.ptrs_lt (b : Block) {p : ℕ} (hp : p ∈ b.ptrs) : p < 4294967296 := by
  obtain ⟨i, -, rfl⟩ := List.mem_map.mp hp
  exact value_lt b.get 4 (4 * i)

/-- A stored pointer array reads back. -/
theorem Block.ptrs_ofPtrs {ps : List ℕ} (hlen : ps.length = 128) (hfit : ∀ p ∈ ps, p < 4294967296) :
    (Block.ofPtrs ps).ptrs = ps := by
  apply List.ext_getElem (by simp [hlen])
  intro i hi hi'
  have hbytes : ∀ j < 4, (Block.ofPtrs ps).get (4 * i + j) = byte ps[i] j := by
    intro j hj
    rw [Block.ofPtrs, Block.get_ofFn _ (by omega), show (4 * i + j) / 4 = i by omega,
      show (4 * i + j) % 4 = j by omega, List.getD_eq_getElem _ _ hi']
  simp only [Block.ptrs, List.getElem_map, List.getElem_range, Block.ptr, value_of_byte hbytes]
  exact Nat.mod_eq_of_lt (hfit _ (List.getElem_mem hi'))

/-- Writing back the pointer array just read restores the block. -/
theorem Block.ofPtrs_ptrs (b : Block) : Block.ofPtrs b.ptrs = b := by
  apply Block.ext_get
  intro i hi
  have hlen : i / 4 < b.ptrs.length := by simp; omega
  rw [Block.ofPtrs, Block.get_ofFn _ hi, List.getD_eq_getElem _ _ hlen]
  simp only [Block.ptrs, List.getElem_map, List.getElem_range, Block.ptr]
  rw [byte_value _ _ (by omega : i % 4 < 4), show 4 * (i / 4) + i % 4 = i by omega]

/-- A zeroed block holds null pointers only. -/
theorem Block.ptrs_zero : Block.zero.ptrs = List.replicate 128 0 := by
  apply List.eq_replicate_of_mem ?_ |>.trans (by rw [Block.ptrs_length])
  intro p hp
  obtain ⟨i, -, rfl⟩ := List.mem_map.mp hp
  simp [Block.ptr, value]

/-! ## The `inodes` view of an inode block -/

/-- `struct dinode`. -/
structure Dinode where
  type : ℕ
  major : ℕ
  minor : ℕ
  linkcnt : ℕ
  size : ℕ
  ptrs : List ℕ

/-- The inode that `memset(p, 0, sizeof(*p))` leaves. -/
def Dinode.zero : Dinode := ⟨0, 0, 0, 0, 0, List.replicate nptrs 0⟩

/-- The fields are within the widths of `uint16_t` and `uint32_t`. -/
structure Dinode.Fits (di : Dinode) : Prop where
  type : di.type < 65536
  major : di.major < 65536
  minor : di.minor < 65536
  linkcnt : di.linkcnt < 65536
  size : di.size < 4294967296
  length : di.ptrs.length = 13
  ptrs : ∀ p ∈ di.ptrs, p < 4294967296

/-- The 64 bytes of a `struct dinode`. -/
def Dinode.bytes (di : Dinode) (i : ℕ) : UInt8 :=
  if i < 2 then byte di.type i
  else if i < 4 then byte di.major (i - 2)
  else if i < 6 then byte di.minor (i - 4)
  else if i < 8 then byte di.linkcnt (i - 6)
  else if i < 12 then byte di.size (i - 8)
  else byte (di.ptrs.getD ((i - 12) / 4) 0) ((i - 12) % 4)

/-- The `struct dinode` stored from an offset on. -/
def Dinode.ofBytes (f : ℕ → UInt8) (o : ℕ) : Dinode where
  type := value f 2 o
  major := value f 2 (o + 2)
  minor := value f 2 (o + 4)
  linkcnt := value f 2 (o + 6)
  size := value f 4 (o + 8)
  ptrs := (List.range nptrs).map fun i => value f 4 (o + 12 + 4 * i)

/-- `b.inodes[j]`. -/
def Block.inode (b : Block) (j : ℕ) : Dinode := .ofBytes b.get (64 * j)

/-- `b.inodes[j] = di`. -/
def Block.setInode (b : Block) (j : ℕ) (di : Dinode) : Block :=
  .ofFn fun i => if i / 64 = j then di.bytes (i % 64) else b.get i

/-- Whatever is read from the disk fits its fields. -/
theorem Dinode.fits_ofBytes (f : ℕ → UInt8) (o : ℕ) : (Dinode.ofBytes f o).Fits where
  type := value_lt f 2 _
  major := value_lt f 2 _
  minor := value_lt f 2 _
  linkcnt := value_lt f 2 _
  size := value_lt f 4 _
  length := by simp [Dinode.ofBytes]
  ptrs := by
    intro p hp
    obtain ⟨i, -, rfl⟩ := List.mem_map.mp hp
    exact value_lt f 4 _

/-- The zero inode fits its fields. -/
theorem Dinode.fits_zero : Dinode.zero.Fits := by
  constructor <;> simp [Dinode.zero]

/-- A new size and new pointers that fit. -/
theorem Dinode.Fits.resize {di : Dinode} (h : di.Fits) {ps : List ℕ} {size : ℕ}
    (hsize : size < 4294967296) (hlen : ps.length = 13) (hptrs : ∀ p ∈ ps, p < 4294967296) :
    { di with ptrs := ps, size := size }.Fits :=
  ⟨h.type, h.major, h.minor, h.linkcnt, hsize, hlen, hptrs⟩

/-- Decoding depends on the 64 bytes of the inode only. -/
theorem Dinode.ofBytes_congr {f g : ℕ → UInt8} {o p : ℕ} (h : ∀ i < 64, f (o + i) = g (p + i)) :
    Dinode.ofBytes f o = Dinode.ofBytes g p := by
  have field (w a : ℕ) (ha : a + w ≤ 64) : value f w (o + a) = value g w (p + a) := by
    apply value_congr
    intro i hi
    simpa only [Nat.add_assoc] using h (a + i) (by omega)
  have htype := field 2 0 (by omega)
  simp only [Nat.add_zero] at htype
  simp only [Dinode.ofBytes, htype, field 2 2 (by omega), field 2 4 (by omega),
    field 2 6 (by omega), field 4 8 (by omega), Dinode.mk.injEq, true_and]
  apply List.map_congr_left
  intro i hi
  have hi13 : i < 13 := List.mem_range.mp hi
  simpa only [Nat.add_assoc] using field 4 (12 + 4 * i) (by omega)

/-- An inode that fits its fields survives encoding. -/
theorem Dinode.ofBytes_bytes {di : Dinode} (hfit : di.Fits) {f : ℕ → UInt8} {o : ℕ}
    (h : ∀ i < 64, f (o + i) = di.bytes i) : Dinode.ofBytes f o = di := by
  have field (w a v : ℕ) (ha : a + w ≤ 64)
      (hv : ∀ i < w, di.bytes (a + i) = byte v i) :
      value f w (o + a) = v % 256 ^ w := by
    apply value_of_byte
    intro i hi
    rw [Nat.add_assoc, h (a + i) (by omega), hv i hi]
  have htype := field 2 0 di.type (by omega) (by
    intro i hi; interval_cases i <;> rfl)
  have hmajor := field 2 2 di.major (by omega) (by
    intro i hi; interval_cases i <;> rfl)
  have hminor := field 2 4 di.minor (by omega) (by
    intro i hi; interval_cases i <;> rfl)
  have hlinkcnt := field 2 6 di.linkcnt (by omega) (by
    intro i hi; interval_cases i <;> rfl)
  have hsize := field 4 8 di.size (by omega) (by
    intro i hi; interval_cases i <;> rfl)
  have hptrs : (List.range nptrs).map (fun i => value f 4 (o + 12 + 4 * i)) = di.ptrs := by
    apply List.ext_getElem (by simp [hfit.length])
    intro i hi hi'
    have hi13 : i < 13 := by simpa using hi
    have hptr := field 4 (12 + 4 * i) di.ptrs[i] (by omega) (by
      intro j hj
      rw [Dinode.bytes, if_neg (by omega), if_neg (by omega), if_neg (by omega), if_neg (by omega),
        if_neg (by omega), show (12 + 4 * i + j - 12) / 4 = i by omega,
        show (12 + 4 * i + j - 12) % 4 = j by omega, List.getD_eq_getElem _ _ hi'])
    have hlt := hfit.ptrs _ (List.getElem_mem hi')
    rw [Nat.mod_eq_of_lt (by omega), ← Nat.add_assoc] at hptr
    simpa only [List.getElem_map, List.getElem_range] using hptr
  have ht := hfit.type
  have hma := hfit.major
  have hmi := hfit.minor
  have hl := hfit.linkcnt
  have hs := hfit.size
  rw [Nat.add_zero, Nat.mod_eq_of_lt (by omega)] at htype
  rw [Nat.mod_eq_of_lt (by omega)] at hmajor hminor hlinkcnt hsize
  simp only [Dinode.ofBytes, htype, hmajor, hminor, hlinkcnt, hsize, hptrs]

/-- The bytes of a stored inode are those it was read from. -/
theorem Dinode.bytes_ofBytes (f : ℕ → UInt8) (o : ℕ) {i : ℕ} (hi : i < 64) :
    (Dinode.ofBytes f o).bytes i = f (o + i) := by
  rw [Dinode.bytes, Dinode.ofBytes]
  dsimp only
  split
  · rw [byte_value _ _ (by omega)]
  · split
    · rw [byte_value _ _ (by omega), show o + 2 + (i - 2) = o + i by omega]
    · split
      · rw [byte_value _ _ (by omega), show o + 4 + (i - 4) = o + i by omega]
      · split
        · rw [byte_value _ _ (by omega), show o + 6 + (i - 6) = o + i by omega]
        · split
          · rw [byte_value _ _ (by omega), show o + 8 + (i - 8) = o + i by omega]
          · have hlen : (i - 12) / 4 <
                ((List.range nptrs).map fun k => value f 4 (o + 12 + 4 * k)).length := by
              simp
              omega
            rw [List.getD_eq_getElem _ _ hlen, List.getElem_map, List.getElem_range,
              byte_value _ _ (Nat.mod_lt _ (by decide)),
              show o + 12 + 4 * ((i - 12) / 4) + (i - 12) % 4 = o + i by omega]

/-- An inode read from a block fits its fields. -/
theorem Block.fits_inode (b : Block) (j : ℕ) : (b.inode j).Fits := Dinode.fits_ofBytes _ _

/-- A stored inode reads back. -/
theorem Block.inode_setInode {b : Block} {j : ℕ} {di : Dinode} (hj : j < 8) (hfit : di.Fits) :
    (b.setInode j di).inode j = di := by
  apply Dinode.ofBytes_bytes hfit
  intro i hi
  rw [Block.setInode, Block.get_ofFn _ (by omega), if_pos (by omega),
    show (64 * j + i) % 64 = i by omega]

/-- Storing an inode leaves its seven neighbours alone. -/
theorem Block.inode_setInode_of_ne {b : Block} {i j : ℕ} {di : Dinode} (hi : i < 8) (hne : i ≠ j) :
    (b.setInode j di).inode i = b.inode i := by
  apply Dinode.ofBytes_congr
  intro a ha
  rw [Block.setInode, Block.get_ofFn _ (by omega), if_neg (by omega)]

/-- In a zeroed block every inode is the zero inode. -/
theorem Block.inode_zero (j : ℕ) : Block.zero.inode j = Dinode.zero := by
  have hfirst : Block.zero.inode j = Dinode.ofBytes (fun _ => 0) 0 :=
    Dinode.ofBytes_congr fun i _ => Block.get_zero (64 * j + i)
  rw [hfirst]
  rfl

/-! ## The `dirents` view -/

/-- `struct dirent`: an inode number and the raw bytes of the name. -/
structure Dirent where
  inum : ℕ
  name : List UInt8

/-- The 16 bytes of a `struct dirent`. -/
def Dirent.bytes (de : Dirent) (i : ℕ) : UInt8 :=
  if i < 2 then byte de.inum i else de.name.getD (i - 2) 0

/-- The `struct dirent` stored from an offset on. -/
def Dirent.ofBytes (f : ℕ → UInt8) (o : ℕ) : Dirent where
  inum := value f 2 o
  name := (List.range maxName).map fun i => f (o + 2 + i)

/-- Decoding depends on the 16 bytes of the entry only. -/
theorem Dirent.ofBytes_congr {f g : ℕ → UInt8} {o p : ℕ} (h : ∀ i < 16, f (o + i) = g (p + i)) :
    Dirent.ofBytes f o = Dirent.ofBytes g p := by
  have hinum : value f 2 o = value g 2 p := value_congr fun i hi => h i (by omega)
  simp only [Dirent.ofBytes, hinum, Dirent.mk.injEq, true_and]
  apply List.map_congr_left
  intro i hi
  have hi14 : i < 14 := List.mem_range.mp hi
  simpa only [Nat.add_assoc] using h (2 + i) (by omega)

/-- A directory entry with a 14-byte name survives encoding. -/
theorem Dirent.ofBytes_bytes {de : Dirent} (hinum : de.inum < 65536) (hlen : de.name.length = 14)
    {f : ℕ → UInt8} {o : ℕ} (h : ∀ i < 16, f (o + i) = de.bytes i) : Dirent.ofBytes f o = de := by
  have hvalue : value f 2 o = de.inum % 256 ^ 2 := by
    apply value_of_byte
    intro i hi
    rw [h i (by omega), Dirent.bytes, if_pos hi]
  have hname : (List.range maxName).map (fun i => f (o + 2 + i)) = de.name := by
    apply List.ext_getElem (by simp [hlen])
    intro i hi hi'
    simp only [List.getElem_map, List.getElem_range, Nat.add_assoc]
    rw [h (2 + i) (by omega), Dirent.bytes, if_neg (by omega), show 2 + i - 2 = i by omega,
      List.getD_eq_getElem _ _ hi']
  rw [Nat.mod_eq_of_lt (by omega)] at hvalue
  simp only [Dirent.ofBytes, hvalue, hname]

/-! ## The superblock and the partition entry -/

/-- `struct superblock`. -/
@[ext] structure Superblock where
  start : ℕ
  ninodes : ℕ
  nblockTot : ℕ
  nblockLog : ℕ
  nblockDat : ℕ
  nblockInode : ℕ
  slog : ℕ
  sinode : ℕ
  sbitmap : ℕ
  sdata : ℕ
  magic : ℕ
  deriving DecidableEq

/-- The eleven `uint32_t` fields of the superblock in storage order. -/
def Superblock.words (su : Superblock) : List ℕ :=
  [su.start, su.ninodes, su.nblockTot, su.nblockLog, su.nblockDat, su.nblockInode, su.slog,
    su.sinode, su.sbitmap, su.sdata, su.magic]

/-- `b.su`. -/
def Block.su (b : Block) : Superblock where
  start := b.ptr 0
  ninodes := b.ptr 1
  nblockTot := b.ptr 2
  nblockLog := b.ptr 3
  nblockDat := b.ptr 4
  nblockInode := b.ptr 5
  slog := b.ptr 6
  sinode := b.ptr 7
  sbitmap := b.ptr 8
  sdata := b.ptr 9
  magic := b.ptr 10

/-- The block that holds a superblock and zeros behind it. -/
def Superblock.toBlock (su : Superblock) : Block := .ofPtrs su.words

/-- A superblock of 32-bit numbers reads back from its block. -/
theorem Superblock.su_toBlock {su : Superblock} (hfit : ∀ v ∈ su.words, v < 4294967296) :
    su.toBlock.su = su := by
  have hptr (i : ℕ) (hi : i < 11) : su.toBlock.ptr i = su.words.getD i 0 := by
    have hlen : i < su.words.length := by simpa [Superblock.words] using hi
    have hbytes : ∀ j < 4, su.toBlock.get (4 * i + j) = byte (su.words.getD i 0) j := by
      intro j hj
      rw [Superblock.toBlock, Block.ofPtrs, Block.get_ofFn _ (by omega),
        show (4 * i + j) / 4 = i by omega, show (4 * i + j) % 4 = j by omega]
    rw [Block.ptr, value_of_byte hbytes, List.getD_eq_getElem _ _ hlen]
    exact Nat.mod_eq_of_lt (hfit _ (List.getElem_mem hlen))
  apply Superblock.ext <;> exact hptr _ (by omega)

/-- `struct partition`, the fields the file system reads. -/
structure Partition where
  startlba : ℕ
  nsectors : ℕ

end Hobby386
