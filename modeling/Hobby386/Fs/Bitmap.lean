import Hobby386.Lib.FirstFit
import Hobby386.Fs.State
import Mathlib.Data.Nat.Bitwise

/-!
# The block bitmap

`bitmap_alloc` and `bitmap_free`. Bit `k` of the one bitmap block stands for the data block
`sdata + k`. The allocator looks at whole bytes only, so it hands out blocks below
`8 * (nblock_dat / 8)`; seen from outside it is a first-fit allocator over these bits.
-/

namespace Hobby386

/-- Bit `k` of a bitmap block. -/
def Block.bit (b : Block) (k : ℕ) : Bool := (b.get (k / 8)).toNat.testBit (k % 8)

/-- `b.bytes[i] = c`. -/
def Block.setByte (b : Block) (i : ℕ) (c : UInt8) : Block :=
  .ofFn fun j => if j = i then c else b.get j

/-- The loop over the bits of a byte: the position of the first 0 bit, 8 if there is none. -/
def firstClear (c : UInt8) : ℕ := ((List.range 8).find? fun off => !c.toNat.testBit off).getD 8

/-- The loop over the next `n` bytes from byte `i` on, up to the first that is not 0xff. -/
def scanBytes (b : Block) : (i n : ℕ) → Except Fault (Option ℕ)
  | _, 0 => .ok none
  | i, n + 1 =>
    if i < blockSize then
      if b.get i = 0xff then scanBytes b (i + 1) n else .ok (some i)
    else .error .outOfBounds

/-- `bitmap_alloc`. -/
def bitmapAlloc (fs : Fs) : Except Fault (ℕ × Fs) := do
  let b := fs.diskRead fs.su.sbitmap
  match ← scanBytes b 0 (fs.su.nblockDat / 8) with
  | none => .ok (0, fs)
  | some i =>
    let off := firstClear (b.get i)
    if fs.su.nblockDat ≤ off + i * 8 then .ok (0, fs)
    else if off = 8 then .error .panic
    else
      let b := b.setByte i (b.get i ||| UInt8.ofNat (1 <<< off))
      .ok (u32 (off + i * 8 + fs.su.sdata), fs.diskWrite fs.su.sbitmap b)

/-- `bitmap_free`: `true` for the return value 0, `false` for -1. -/
def bitmapFree (fs : Fs) (n : ℕ) : Except Fault (Bool × Fs) :=
  if n < fs.su.sdata ∨ u32 (fs.su.sdata + fs.su.nblockDat) ≤ n then .ok (false, fs)
  else
    let b := fs.diskRead fs.su.sbitmap
    if n / 8 < blockSize then
      if b.bit n then
        let c := b.get (n / 8) &&& ~~~(UInt8.ofNat (1 <<< (n % 8)))
        .ok (true, fs.diskWrite fs.su.sbitmap (b.setByte (n / 8) c))
      else .ok (false, fs)
    else .error .outOfBounds

/-! ## The allocator as first fit -/

/-- The layout `fs_format` writes, for a partition that holds the fixed regions and ends at a
32-bit block number. -/
structure Superblock.Layout (su : Superblock) : Prop where
  ninodes : su.ninodes = 200
  nblockInode : su.nblockInode = 25
  slog : su.slog = su.start + 1
  sinode : su.sinode = su.start + 31
  sbitmap : su.sbitmap = su.start + 56
  sdata : su.sdata = su.start + 57
  fits : su.sdata + su.nblockDat ≤ 4294967296

/-- Block `n` lies in the data area. -/
def Superblock.InData (su : Superblock) (n : ℕ) : Prop := su.sdata ≤ n ∧ n < su.sdata + su.nblockDat

/-- The bitmap bit of block `n`. -/
def marked (su : Superblock) (d : Disk) (n : ℕ) : Bool := (d su.sbitmap).bit (n - su.sdata)

/-- The blocks the allocator can still hand out, in the order in which it does. -/
def freeBlocks (su : Superblock) (d : Disk) : List ℕ :=
  (FirstFit.free (d su.sbitmap).bit (8 * min (su.nblockDat / 8) 512)).map (su.sdata + ·)

/-- A byte has eight bits. -/
theorem testBit_of_le (c : UInt8) {i : ℕ} (hi : 8 ≤ i) : c.toNat.testBit i = false :=
  Nat.testBit_lt_two_pow (c.toNat_lt.trans_le (Nat.pow_le_pow_right (by decide) hi))

/-- Only the byte 0xff has no 0 bit. -/
theorem eq_ff_iff (c : UInt8) : c = 0xff ↔ ∀ off < 8, c.toNat.testBit off = true := by
  constructor
  · rintro rfl off hoff
    interval_cases off <;> rfl
  · intro h
    apply UInt8.toNat_inj.mp
    apply Nat.eq_of_testBit_eq
    intro i
    change _ = (2 ^ 8 - 1).testBit i
    rw [Nat.testBit_two_pow_sub_one]
    by_cases hi : i < 8
    · rw [h i hi, decide_eq_true hi]
    · rw [testBit_of_le c (by omega), decide_eq_false hi]

/-- In a byte other than 0xff the bit loop stops at its least 0 bit. -/
theorem firstClear_spec {c : UInt8} (h : c ≠ 0xff) :
    firstClear c < 8 ∧ c.toNat.testBit (firstClear c) = false ∧
      ∀ j < firstClear c, c.toNat.testBit j = true := by
  cases hfind : (List.range 8).find? fun off => !c.toNat.testBit off with
  | none =>
    rw [List.find?_eq_none] at hfind
    exact absurd ((eq_ff_iff c).mpr fun off hoff => by simpa using hfind off (List.mem_range.mpr hoff)) h
  | some off =>
    have hfirst : firstClear c = off := by rw [firstClear, hfind, Option.getD_some]
    rw [List.find?_range_eq_some] at hfind
    rw [hfirst]
    exact ⟨List.mem_range.mp hfind.2.1, by simpa using hfind.1,
      fun j hj => by simpa using hfind.2.2 j hj⟩

/-- What the byte loop finds. -/
theorem scanBytes_spec {b : Block} {i n : ℕ} {r : Option ℕ} (h : scanBytes b i n = .ok r) :
    (∀ j, i ≤ j → j < r.getD (i + n) → j < 512 ∧ b.get j = 0xff) ∧
      ∀ j ∈ r, j < i + n ∧ j < 512 ∧ b.get j ≠ 0xff := by
  induction n generalizing i with
  | zero =>
    cases h
    exact ⟨fun j hj hj' => absurd hj' (by simp; omega), by simp⟩
  | succ n ih =>
    rw [scanBytes] at h
    split at h
    · rename_i hi
      split at h
      · rename_i hff
        have hrest := ih h
        constructor
        · intro j hj hj'
          rcases Nat.eq_or_lt_of_le hj with rfl | hlt
          · exact ⟨hi, hff⟩
          · exact hrest.1 j hlt (by rwa [show i + (n + 1) = i + 1 + n by omega] at hj')
        · intro j hj
          have hfound := hrest.2 j hj
          exact ⟨by omega, hfound.2⟩
      · rename_i hff
        cases h
        refine ⟨fun j hj hj' => absurd hj' (by simp; omega), ?_⟩
        intro j hj
        cases hj
        exact ⟨by omega, hi, hff⟩
    · cases h

/-- The byte loop returns as long as the bytes are inside the block. -/
theorem scanBytes_returns (b : Block) {i n : ℕ} (h : i + n ≤ 512) : ∃ r, scanBytes b i n = .ok r := by
  induction n generalizing i with
  | zero => exact ⟨none, rfl⟩
  | succ n ih =>
    rw [scanBytes, if_pos (show i < 512 by omega)]
    split
    · exact ih (by omega)
    · exact ⟨some i, rfl⟩

/-- The mask of one bit of a byte. -/
theorem toNat_bitMask {off : ℕ} (hoff : off < 8) : (UInt8.ofNat (1 <<< off)).toNat = 2 ^ off := by
  have hlt : 2 ^ off < 256 := Nat.pow_lt_pow_right (by decide) hoff
  simp [Nat.shiftLeft_eq, UInt8.toNat_ofNat', Nat.mod_eq_of_lt hlt]

/-- Masking out one bit of a byte. -/
theorem testBit_clear {c : UInt8} {off i : ℕ} (hoff : off < 8) :
    (c &&& ~~~UInt8.ofNat (1 <<< off)).toNat.testBit i = (c.toNat.testBit i && decide (i ≠ off)) := by
  have hlt : 2 ^ off < 2 ^ 8 := Nat.pow_lt_pow_right (by decide) hoff
  have hnot : (~~~UInt8.ofNat (1 <<< off)).toNat = 2 ^ 8 - (2 ^ off + 1) := by
    rw [UInt8.toNat_not, toNat_bitMask hoff]
    simp [UInt8.size]
  by_cases hi : i < 8
  · rw [UInt8.toNat_and, Nat.testBit_and, hnot, Nat.testBit_two_pow_sub_succ hlt, Nat.testBit_two_pow,
      decide_eq_true hi, Bool.true_and]
    congr 1
    by_cases h : off = i <;> simp [h, eq_comm]
  · rw [testBit_of_le _ (by omega), testBit_of_le _ (by omega), Bool.false_and]

/-- There are no bits behind the bytes of a block. -/
theorem Block.bit_of_le (b : Block) {k : ℕ} (hk : 4096 ≤ k) : b.bit k = false := by
  have hout : ¬k / 8 < 512 := by omega
  simp [Block.bit, Block.get, hout]

/-- Setting one bit of a bitmap block sets this bit and no other. -/
theorem Block.bit_setByte {b : Block} {i off k : ℕ} (hi : i < 512) (hoff : off < 8) :
    (b.setByte i (b.get i ||| UInt8.ofNat (1 <<< off))).bit k =
      (b.bit k || decide (k = off + i * 8)) := by
  by_cases hk : k < 4096
  · rw [Block.bit, Block.bit, Block.setByte, Block.get_ofFn _ (by omega)]
    by_cases hki : k / 8 = i
    · rw [if_pos hki, UInt8.toNat_or, toNat_bitMask hoff, Nat.testBit_or, Nat.testBit_two_pow, hki]
      congr 1
      apply decide_eq_decide.mpr
      omega
    · rw [if_neg hki, decide_eq_false (by omega), Bool.or_false]
  · rw [Block.bit_of_le _ (by omega), Block.bit_of_le _ (by omega), decide_eq_false (by omega),
      Bool.or_false]

/-- Clearing one bit of a bitmap block clears this bit and no other. -/
theorem Block.bit_clearByte {b : Block} {n k : ℕ} :
    (b.setByte (n / 8) (b.get (n / 8) &&& ~~~(UInt8.ofNat (1 <<< (n % 8))))).bit k =
      (b.bit k && decide (k ≠ n)) := by
  by_cases hk : k < 4096
  · rw [Block.bit, Block.bit, Block.setByte, Block.get_ofFn _ (by omega)]
    by_cases hki : k / 8 = n / 8
    · rw [if_pos hki, testBit_clear (Nat.mod_lt _ (by decide)), hki]
      congr 1
      apply decide_eq_decide.mpr
      omega
    · have hne : k ≠ n := fun h => hki (by rw [h])
      rw [if_neg hki, decide_eq_true hne, Bool.and_true]
  · rw [Block.bit_of_le _ (by omega), Block.bit_of_le _ (by omega), Bool.false_and]

/-- Blocks are equal as soon as their 4096 bits are. -/
theorem Block.ext_bit {b c : Block} (h : ∀ k < 4096, b.bit k = c.bit k) : b = c := by
  apply Block.ext_get
  intro i hi
  apply UInt8.toNat_inj.mp
  apply Nat.eq_of_testBit_eq
  intro j
  by_cases hj : j < 8
  · have hbit := h (8 * i + j) (by omega)
    rwa [Block.bit, Block.bit, show (8 * i + j) / 8 = i by omega,
      show (8 * i + j) % 8 = j by omega] at hbit
  · rw [testBit_of_le _ (by omega), testBit_of_le _ (by omega)]

/-- The effect of an allocation of block `q`: only the bitmap block is written, `q` leaves the head
of the free list, and its bit is the one that changes. -/
structure TakesBlock (fs fs' : Fs) (q : ℕ) : Prop where
  write : ∃ b, fs' = fs.diskWrite fs.su.sbitmap b
  free : freeBlocks fs.su fs.disk = q :: freeBlocks fs.su fs'.disk
  marked : ∀ n, fs.su.sdata ≤ n →
    marked fs.su fs'.disk n = (marked fs.su fs.disk n || decide (n = q))

/-- Setting the bit of the first free unit is an allocation. -/
theorem takesBlock_of_bit {fs : Fs} {b : Block} {k : ℕ} {rest : List ℕ}
    (hfree : FirstFit.free (fs.disk fs.su.sbitmap).bit (8 * min (fs.su.nblockDat / 8) 512) = k :: rest)
    (hbit : ∀ j, b.bit j = ((fs.disk fs.su.sbitmap).bit j || decide (j = k))) :
    TakesBlock fs (fs.diskWrite fs.su.sbitmap b) (fs.su.sdata + k) where
  write := ⟨b, rfl⟩
  free := by
    have hrest := FirstFit.free_take_head hfree (fun j _ => hbit j)
    simp only [freeBlocks, Fs.diskWrite_disk_self, hrest, hfree, List.map_cons]
  marked := by
    intro n hn
    simp only [Hobby386.marked, Fs.diskWrite_disk_self, hbit]
    congr 1
    apply decide_eq_decide.mpr
    omega

/-- A call of the allocator takes the head of the free list, or finds the list empty. The block number it
returns is what is left of the sum in 32 bits. -/
theorem bitmapAlloc_takes {fs fs' : Fs} {r : ℕ} (h : bitmapAlloc fs = .ok (r, fs')) :
    (r = 0 ∧ fs' = fs ∧ freeBlocks fs.su fs.disk = []) ∨ ∃ q, r = u32 q ∧ TakesBlock fs fs' q := by
  rw [bitmapAlloc, bind_eq_ok] at h
  obtain ⟨r, hscan, h⟩ := h
  have hspec := scanBytes_spec hscan
  cases r with
  | none =>
    cases h
    refine .inl ⟨rfl, rfl, ?_⟩
    rw [freeBlocks, FirstFit.free_eq_nil, List.map_nil]
    intro k hk
    have hfull := (hspec.1 (k / 8) (by omega) (by simp; omega)).2
    exact (eq_ff_iff _).mp hfull (k % 8) (by omega)
  | some i =>
    obtain ⟨hin, hi512, hne⟩ := hspec.2 i rfl
    obtain ⟨hoff8, hclear, hleast⟩ := firstClear_spec hne
    dsimp only at h
    rw [if_neg (by omega), if_neg (by omega)] at h
    cases h
    set off := firstClear ((fs.diskRead fs.su.sbitmap).get i) with hoff
    obtain ⟨rest, hrest⟩ : ∃ rest, FirstFit.free (fs.disk fs.su.sbitmap).bit
        (8 * min (fs.su.nblockDat / 8) 512) = (off + i * 8) :: rest := by
      apply FirstFit.free_eq_cons (by omega)
      · rw [Block.bit, show (off + i * 8) / 8 = i by omega, show (off + i * 8) % 8 = off by omega]
        exact hclear
      · intro j hj
        rcases Nat.lt_or_ge (j / 8) i with hlt | hge
        · exact (eq_ff_iff _).mp (hspec.1 (j / 8) (by omega) hlt).2 (j % 8) (by omega)
        · rw [Block.bit, show j / 8 = i by omega]
          exact hleast (j % 8) (by omega)
    exact .inr ⟨_, by rw [Nat.add_comm], takesBlock_of_bit hrest fun k => Block.bit_setByte hi512 hoff8⟩

/-- In the layout of `fs_format` block numbers fit in 32 bits. -/
theorem bitmapAlloc_cases {fs fs' : Fs} {q : ℕ} (hlayout : fs.su.Layout)
    (h : bitmapAlloc fs = .ok (q, fs')) :
    (q = 0 ∧ fs' = fs ∧ freeBlocks fs.su fs.disk = []) ∨ TakesBlock fs fs' q := by
  rcases bitmapAlloc_takes h with hnone | ⟨r, hq, htakes⟩
  · exact .inl hnone
  · right
    obtain ⟨k, hk, rfl⟩ := List.mem_map.mp (show r ∈ freeBlocks fs.su fs.disk by
      rw [htakes.free]
      exact List.mem_cons_self)
    have hlt := (FirstFit.mem_free.mp hk).1
    have hfits := hlayout.fits
    rwa [hq, u32_of_lt (by omega)]

/-- The allocator returns whenever its bitmap fits in one block. -/
theorem bitmapAlloc_returns {fs : Fs} (h : fs.su.nblockDat ≤ 4096) : ∃ r, bitmapAlloc fs = .ok r := by
  obtain ⟨r, hscan⟩ := scanBytes_returns (fs.diskRead fs.su.sbitmap)
    (show 0 + fs.su.nblockDat / 8 ≤ 512 by omega)
  rw [bitmapAlloc, hscan, ok_bind]
  cases r with
  | none => exact ⟨_, rfl⟩
  | some i =>
    have hoff8 := (firstClear_spec ((scanBytes_spec hscan).2 i rfl).2.2).1
    dsimp only
    split
    · exact ⟨_, rfl⟩
    · rw [if_neg (by omega)]
      exact ⟨_, rfl⟩

/-! ## Freeing a block

`bitmap_free` looks up the bit of the block number itself, not the one of its place in the data area. -/

/-- The numbers that pass the range check of `bitmap_free`, whose bound is a sum of 32 bits. -/
def Superblock.Freeable (su : Superblock) (n : ℕ) : Prop :=
  su.sdata ≤ n ∧ n < u32 (su.sdata + su.nblockDat)

/-- The effect of freeing block `n`: only the bitmap block is written, and bit `n` is cleared. -/
def ClearsBit (fs fs' : Fs) (n : ℕ) : Prop :=
  ∃ b, fs' = fs.diskWrite fs.su.sbitmap b ∧
    ∀ k, b.bit k = ((fs.disk fs.su.sbitmap).bit k && decide (k ≠ n))

/-- Numbers out of range and bits that are not set are refused. -/
theorem bitmapFree_false {fs : Fs} {n : ℕ}
    (h : fs.su.Freeable n → n < 4096 ∧ (fs.disk fs.su.sbitmap).bit n = false) :
    bitmapFree fs n = .ok (false, fs) := by
  rw [bitmapFree]
  split
  · rfl
  · rename_i hrange
    rw [not_or, Nat.not_lt, Nat.not_le] at hrange
    obtain ⟨hn, hbit⟩ := h hrange
    dsimp only
    rw [if_pos (by simp only [blockSize]; omega), Fs.diskRead, if_neg (by simp [hbit])]

/-- A bit that is set is cleared. -/
theorem bitmapFree_true {fs : Fs} {n : ℕ} (hrange : fs.su.Freeable n)
    (hbit : (fs.disk fs.su.sbitmap).bit n = true) :
    ∃ fs', bitmapFree fs n = .ok (true, fs') ∧ ClearsBit fs fs' n := by
  obtain ⟨hlow, hhigh⟩ := hrange
  have hn : n < 4096 := by
    by_contra hge
    rw [Block.bit_of_le _ (Nat.not_lt.mp hge)] at hbit
    exact absurd hbit (by decide)
  refine ⟨_, ?_, _, rfl, fun k => Block.bit_clearByte⟩
  rw [bitmapFree, if_neg (by omega)]
  dsimp only
  rw [if_pos (by simp only [blockSize]; omega), Fs.diskRead, if_pos hbit]

/-- What a call that returns has done. -/
theorem bitmapFree_cases {fs fs' : Fs} {n : ℕ} {r : Bool} (h : bitmapFree fs n = .ok (r, fs')) :
    (r = false ∧ fs' = fs ∧ (fs.su.Freeable n → n < 4096 ∧ (fs.disk fs.su.sbitmap).bit n = false)) ∨
      (r = true ∧ fs.su.Freeable n ∧ (fs.disk fs.su.sbitmap).bit n = true ∧ ClearsBit fs fs' n) := by
  by_cases hrange : fs.su.Freeable n
  · by_cases hbit : (fs.disk fs.su.sbitmap).bit n = true
    · obtain ⟨fs₁, hfree, hclears⟩ := bitmapFree_true hrange hbit
      rw [hfree] at h
      cases h
      exact .inr ⟨rfl, hrange, hbit, hclears⟩
    · rw [Bool.not_eq_true] at hbit
      by_cases hn : n < 4096
      · rw [bitmapFree_false fun _ => ⟨hn, hbit⟩] at h
        cases h
        exact .inl ⟨rfl, rfl, fun _ => ⟨hn, hbit⟩⟩
      · obtain ⟨hlow, hhigh⟩ := hrange
        rw [bitmapFree, if_neg (by omega)] at h
        dsimp only at h
        rw [if_neg (by simp only [blockSize]; omega)] at h
        cases h
  · rw [bitmapFree_false fun hin => absurd hin hrange] at h
    cases h
    exact .inl ⟨rfl, rfl, fun hin => absurd hin hrange⟩

/-! ## The free list -/

/-- No free block is listed twice. -/
theorem nodup_freeBlocks (su : Superblock) (d : Disk) : (freeBlocks su d).Nodup :=
  List.Nodup.map (add_right_injective su.sdata) (FirstFit.nodup_free _ _)

/-- A free block is an unmarked block of the data area. -/
theorem of_mem_freeBlocks {su : Superblock} {d : Disk} {n : ℕ} (h : n ∈ freeBlocks su d) :
    su.InData n ∧ marked su d n = false := by
  obtain ⟨k, hk, rfl⟩ := List.mem_map.mp h
  rw [FirstFit.mem_free] at hk
  refine ⟨⟨by omega, by omega⟩, ?_⟩
  rw [marked, Nat.add_sub_cancel_left]
  exact hk.2

/-- The free list and the marks depend on the bitmap block only. -/
theorem freeBlocks_congr {su : Superblock} {d d' : Disk} (h : d' su.sbitmap = d su.sbitmap) :
    freeBlocks su d' = freeBlocks su d := by rw [freeBlocks, freeBlocks, h]

/-- The marks only depend on the bitmap block. -/
theorem marked_congr {su : Superblock} {d d' : Disk} (h : d' su.sbitmap = d su.sbitmap) (n : ℕ) :
    marked su d' n = marked su d n := by rw [marked, marked, h]

end Hobby386
