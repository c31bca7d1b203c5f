import Hobby386.Lib.PointerForest
import Hobby386.Fs.Inode

/-!
# Reading and writing files

`recursive_rw`, `inode_rw`, `fs_read` and `fs_write`. One record is shared by all calls of a
traversal; each call gets its own pointer cell and level. The call returns the new contents
of the cell, the record and the file system.

The block allocator is a parameter of the traversal and is `bitmap_alloc` in `fs_write`; an
observer of the allocations of a call passes another one.
-/

namespace Hobby386

/-- `struct share_arg`. `buf` is a position in the caller's memory `mem`. -/
structure ShareArg where
  boff : ℕ
  sblock : ℕ
  eblock : ℕ
  off : ℕ
  buf : ℕ
  left : ℕ
  w : Bool
  mem : Memory

/-- What a call of `recursive_rw` leaves behind: its return value, the pointer cell `*pp`, the
shared record and the file system. -/
structure RwOut where
  ret : ℤ
  pp : ℕ
  sa : ShareArg
  fs : Fs

/-- A call of `recursive_rw` at a fixed level. -/
abbrev RwFn := (pp : ℕ) → ShareArg → Fs → Except Fault RwOut

/-- A block allocator: the block number, 0 if there is none. -/
abbrev Allocator := Fs → Except Fault (ℕ × Fs)

/-- What a loop of `recursive_rw` calls leaves behind. -/
structure RwLoop where
  ret : ℤ
  ptrs : List ℕ
  sa : ShareArg
  fs : Fs

/-- The loops `for (...; i++) if (recursive_rw(&ptrs[i], ...)) ...`, from index `i` on: they stop at
the first call with a nonzero result. -/
def rwPtrs (rw : ℕ → RwFn) : (i : ℕ) → List ℕ → ShareArg → Fs → Except Fault RwLoop
  | _, [], sa, fs => .ok ⟨0, [], sa, fs⟩
  | i, p :: ps, sa, fs => do
    let r ← rw i p sa fs
    if r.ret = 0 then
      let t ← rwPtrs rw (i + 1) ps r.sa r.fs
      .ok ⟨t.ret, r.pp :: t.ptrs, t.sa, t.fs⟩
    else .ok ⟨r.ret, r.pp :: ps, r.sa, r.fs⟩

/-- `uint32_t` subtraction. -/
def sub32 (a b : ℕ) : ℕ := u32 (a + (4294967296 - b))

/-- The block coverage of a pointer: what `recursive_rw` adds to `eblock`. -/
def coverage (ilevel : ℕ) : ℕ :=
  if ilevel = 0 then 1
  else if ilevel = 1 then nptrsPerBlock
  else if ilevel = 2 then nptrsPerBlock * nptrsPerBlock
  else 0

/-- The allocation part of a write: `!*pp && !(*pp = bitmap_alloc())`, and the zeroing of a new
indirect block. A zero pointer in the result means that there was no free block. -/
def rwAlloc (alloc : Allocator) (ilevel pp : ℕ) (fs : Fs) : Except Fault (ℕ × Fs) :=
  if pp = 0 then do
    let r ← alloc fs
    if r.1 = 0 then .ok (0, r.2)
    else if ilevel = 0 then .ok r
    else .ok (r.1, r.2.diskWrite r.1 .zero)
  else .ok (pp, fs)

/-- The hole branch of a read. -/
def rwHole (sblock eblock : ℕ) (sa : ShareArg) : ShareArg :=
  let sz := u32 (sub32 eblock sblock * blockSize)
  let sz := if sa.left < sz then sa.left else sz
  { sa with
    mem := memset sa.mem sa.buf 0 sz
    buf := sa.buf + sz
    left := sa.left - sz
    off := u32 (sa.off + sz)
    boff := eblock }

/-- The data block branch. -/
def rwData (eblock pp : ℕ) (sa : ShareArg) (fs : Fs) : RwOut :=
  let start := sa.off % blockSize
  let sz := if sa.left < blockSize - start then sa.left else blockSize - start
  let b := fs.diskRead pp
  let next : ShareArg :=
    { sa with
      buf := sa.buf + sz
      left := sa.left - sz
      off := u32 (sa.off + sz)
      boff := eblock }
  if sa.w then ⟨0, pp, next, fs.diskWrite pp (.ofFn (memcpy b.get start sa.mem sa.buf sz))⟩
  else ⟨0, pp, { next with mem := memcpy sa.mem sa.buf b.get start sz }, fs⟩

/-- The indirect block branch; `below` is the recursive call. -/
def rwIndirect (below : RwFn) (pp : ℕ) (sa : ShareArg) (fs : Fs) : Except Fault RwOut := do
  let b := fs.diskRead pp
  let r ← rwPtrs (fun _ => below) 0 b.ptrs sa fs
  if r.ret = 0 then .ok ⟨0, pp, r.sa, r.fs.diskWrite pp (.ofPtrs r.ptrs)⟩
  else if r.sa.w then .ok ⟨-1, pp, r.sa, r.fs.diskWrite pp (.ofPtrs r.ptrs)⟩
  else .ok ⟨-1, pp, r.sa, r.fs⟩

/-- The body of `recursive_rw`; `below` is the recursive call at `ilevel - 1`. -/
def rwBody (alloc : Allocator) (below : RwFn) (ilevel : ℕ) : RwFn := fun pp sa fs =>
  let sblock := sa.boff
  let eblock := u32 (sa.boff + coverage ilevel)
  if ¬(sblock ≤ sa.eblock ∧ sa.sblock < eblock) then
    .ok ⟨0, pp,
      { sa with boff := eblock, off := u32 (sa.off + u32 (sub32 eblock sblock * blockSize)) }, fs⟩
  else if sa.w then do
    let a ← rwAlloc alloc ilevel pp fs
    if a.1 = 0 then .ok ⟨-1, 0, sa, a.2⟩
    else if ilevel = 0 then .ok (rwData eblock a.1 sa a.2)
    else rwIndirect below a.1 sa a.2
  else if pp = 0 then .ok ⟨0, 0, rwHole sblock eblock sa, fs⟩
  else if ilevel = 0 then .ok (rwData eblock pp sa fs)
  else rwIndirect below pp sa fs

/-- `recursive_rw`. Level 0 makes no recursive call. -/
def recursiveRw (alloc : Allocator) : (ilevel : ℕ) → RwFn
  | 0 => rwBody alloc (fun pp sa fs => .ok ⟨0, pp, sa, fs⟩) 0
  | ilevel + 1 => rwBody alloc (recursiveRw alloc ilevel) (ilevel + 1)

/-- The two's complement bits of an `int`. -/
def bits32 (n : ℤ) : ℕ := (n % 4294967296).toNat

/-- A 32-bit number is its own bit pattern. -/
theorem bits32_natCast {n : ℕ} (h : n < 4294967296) : bits32 (n : ℤ) = n := by
  rw [bits32]
  omega

/-- `inode_rw`: the return value, the caller's memory and the file system. -/
def inodeRw (alloc : Allocator) (fs : Fs) (inum : ℕ) (buf : Memory) (sz : ℤ) (off : ℕ) (w : Bool) :
    Except Fault (ℤ × Memory × Fs) :=
  let ebyte := u32 (off + bits32 sz)
  if !fs.init then .ok (-1, buf, fs.printf "uninitialized\n" [.num inum])
  else if 0xefffffff < bits32 sz then
    .ok (-1, buf, fs.printf "inode_rw: %u: size out of bounds" [.num (bits32 sz)])
  else
    match readInode fs inum with
    | (none, fs) => .ok (-1, buf, fs)
    | (some di, fs) =>
      if w = false ∧ di.size ≤ off then .ok (0, buf, fs)
      else
        let clip := w = false ∧ di.size ≤ ebyte
        let sz := if clip then di.size - off else bits32 sz
        let ebyte := if clip then di.size else ebyte
        let sa : ShareArg := ⟨0, off / blockSize, ebyte / blockSize, off, 0, sz, w, buf⟩
        do
          let r ← rwPtrs (fun i => recursiveRw alloc (getIlevel i)) 0 di.ptrs sa fs
          let consumed := sub32 sz r.sa.left
          let ebyte := u32 (off + consumed)
          let di := { di with ptrs := r.ptrs, size := if ebyte < di.size then di.size else ebyte }
          if w then
            match writeInode r.fs inum di with
            | (none, _) => .error .panic
            | (some _, fs) => .ok (int32 consumed, r.sa.mem, fs)
          else .ok (int32 consumed, r.sa.mem, r.fs)

/-- `fs_write`. -/
def fsWrite (fs : Fs) (inum : ℕ) (buf : Memory) (sz : ℤ) (off : ℕ) : Except Fault (ℤ × Fs) := do
  let r ← inodeRw bitmapAlloc fs inum buf sz off true
  .ok (r.1, r.2.2)

/-- `fs_read`: the return value and what it leaves in the caller's memory. -/
def fsRead (fs : Fs) (inum : ℕ) (buf : Memory) (sz : ℤ) (off : ℕ) : Except Fault (ℤ × Memory × Fs) :=
  inodeRw bitmapAlloc fs inum buf sz off false

/-! ## The contents of a file -/

open PointerForest

/-- The pointers of an array with their levels, the first one having index `i`. -/
def forestFrom (level : ℕ → ℕ) : (i : ℕ) → List ℕ → Forest
  | _, [] => []
  | i, p :: ps => (level i, p) :: forestFrom level (i + 1) ps

/-- The block pointers of an inode: 10 direct, 2 singly-indirect and 1 doubly-indirect. -/
def Dinode.forest (di : Dinode) : Forest := forestFrom getIlevel 0 di.ptrs

/-- The data block that an inode maps file block `k` to, 0 if a pointer on the way is 0. -/
def Fs.fileBlock (fs : Fs) (inum k : ℕ) : ℕ :=
  lookup Block.ptrs nptrsPerBlock fs.disk (fs.dinode inum).forest 0 k

/-- The logical contents of an inode. Holes read as 0. -/
def Fs.content (fs : Fs) (inum x : ℕ) : UInt8 :=
  if fs.fileBlock inum (x / blockSize) = 0 then 0
  else (fs.disk (fs.fileBlock inum (x / blockSize))).get (x % blockSize)

/-- An inode is in use. -/
def Fs.Allocated (fs : Fs) (inum : ℕ) : Prop := inum < fs.su.ninodes ∧ (fs.dinode inum).type ≠ 0

/-- The number of file blocks an inode can address. -/
@[simp] abbrev maxBlocks : ℕ := 10 + 2 * 128 + 128 * 128

/-- The number of bytes an inode can address. -/
@[simp] abbrev maxBytes : ℕ := maxBlocks * 512

/-- Pointers of one level form a row. -/
theorem forestFrom_const (l i : ℕ) (ps : List ℕ) : forestFrom (fun _ => l) i ps = row l ps := by
  induction ps generalizing i with
  | nil => rfl
  | cons p ps ih => rw [forestFrom, ih, row_cons]

/-- The heights of the trees only depend on the number of pointers. -/
theorem forestFrom_fst (level : ℕ → ℕ) {ps qs : List ℕ} (h : ps.length = qs.length) (i : ℕ) :
    (forestFrom level i ps).map Prod.fst = (forestFrom level i qs).map Prod.fst := by
  induction ps generalizing i qs with
  | nil => rw [List.length_eq_zero_iff.mp h.symm]
  | cons p ps ih =>
    cases qs with
    | nil => simp at h
    | cons q qs => simp only [forestFrom, List.map_cons, ih (by simpa using h)]

/-- There is a tree for every pointer. -/
theorem forestFrom_length (level : ℕ → ℕ) (i : ℕ) (ps : List ℕ) :
    (forestFrom level i ps).length = ps.length := by
  induction ps generalizing i with
  | nil => rfl
  | cons p ps ih => rw [forestFrom, List.length_cons, List.length_cons, ih]

/-- The trees of two lists of pointers, one behind the other. -/
theorem forestFrom_append (level : ℕ → ℕ) (i : ℕ) (ps qs : List ℕ) :
    forestFrom level i (ps ++ qs) = forestFrom level i ps ++ forestFrom level (i + ps.length) qs := by
  induction ps generalizing i with
  | nil => rfl
  | cons p ps ih =>
    rw [List.cons_append, forestFrom, forestFrom, ih, List.length_cons, List.cons_append,
      Nat.add_right_comm i 1 ps.length, Nat.add_assoc]

/-- Pointers of one level make a row. -/
theorem forestFrom_row {level : ℕ → ℕ} {l i : ℕ} {ps : List ℕ} (h : ∀ j < ps.length, level (i + j) = l) :
    forestFrom level i ps = row l ps := by
  induction ps generalizing i with
  | nil => rfl
  | cons p ps ih =>
    have htail : ∀ j < ps.length, level (i + 1 + j) = l := by
      intro j hj
      rw [Nat.add_assoc, Nat.add_comm 1 j]
      exact h (j + 1) (by simpa using hj)
    rw [forestFrom, row_cons, ih htail, show level i = l from h 0 (by simp)]

/-- The forest of an inode starts with the row of its direct pointers. -/
theorem Dinode.forest_direct (di : Dinode) :
    di.forest = row 0 (di.ptrs.take 10) ++ forestFrom getIlevel (di.ptrs.take 10).length
      (di.ptrs.drop 10) := by
  have hsplit := forestFrom_append getIlevel 0 (di.ptrs.take 10) (di.ptrs.drop 10)
  rw [List.take_append_drop, Nat.zero_add] at hsplit
  rw [Dinode.forest, hsplit]
  congr 1
  apply forestFrom_row
  intro j hj
  rw [List.length_take] at hj
  rw [getIlevel, if_pos (by simp only [ndirect]; omega)]

/-- The pointers of a forest are those of the array. -/
theorem mem_forestFrom (level : ℕ → ℕ) {ps : List ℕ} (i : ℕ) {p : ℕ} (hp : p ∈ ps) :
    ∃ l, (l, p) ∈ forestFrom level i ps := by
  induction ps generalizing i with
  | nil => simp at hp
  | cons q ps ih =>
    rcases List.mem_cons.mp hp with rfl | hp
    · exact ⟨level i, List.mem_cons_self⟩
    · obtain ⟨l, hl⟩ := ih (i + 1) hp
      exact ⟨l, List.mem_cons_of_mem _ hl⟩

/-- The roots of the trees are the pointers. -/
theorem snd_mem_of_mem_forestFrom {level : ℕ → ℕ} {ps : List ℕ} {i : ℕ} {t : ℕ × ℕ}
    (ht : t ∈ forestFrom level i ps) : t.2 ∈ ps := by
  induction ps generalizing i with
  | nil => simp [forestFrom] at ht
  | cons q ps ih =>
    rcases List.mem_cons.mp ht with rfl | ht
    · exact List.mem_cons_self
    · exact List.mem_cons_of_mem q (ih ht)

/-- Levels 0, 1 and 2 cover the positions of trees of these heights. -/
theorem coverage_eq {ilevel : ℕ} (h : ilevel ≤ 2) : coverage ilevel = 128 ^ ilevel := by
  interval_cases ilevel <;> rfl

/-- An inode addresses exactly `maxBlocks` file blocks. -/
theorem Dinode.width_forest {di : Dinode} (h : di.ptrs.length = 13) :
    width 128 di.forest = maxBlocks := by
  have hfst := forestFrom_fst getIlevel
    (show di.ptrs.length = (List.replicate 13 0).length by simpa using h) 0
  rw [Dinode.forest, width_congr 128 hfst]
  rfl

/-- Blocks are mapped inside the addressable range only. -/
theorem Fs.lt_of_fileBlock (fs : Fs) {inum k : ℕ} (h : fs.fileBlock inum k ≠ 0) : k < maxBlocks := by
  by_contra hge
  refine h (lookup_eq_zero ?_)
  rw [Dinode.width_forest (fs.fits_dinode inum).length]
  omega

end Hobby386
