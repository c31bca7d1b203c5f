import Hobby386.Fs.Traverse

/-!
# The position of a write

A write of `sz` bytes at offset `off` transfers, by the time the traversal stands at file
block `B`, exactly the bytes of the request that lie before block `B`. The three counters of
the shared record are functions of `B`, so one predicate describes the record at every point
of the traversal, before, inside and after the range of the request.
-/

namespace Hobby386

/-- The request of a write: its range, its block range and its source. -/
structure WriteRequest where
  off : ℕ
  sz : ℕ
  sblock : ℕ
  eblock : ℕ
  src : Memory

/-- The block range belongs to the byte range. The end block wraps around only for requests that
start past the last addressable block. -/
structure WriteRequest.Valid (c : WriteRequest) : Prop where
  sblock : c.sblock = c.off / 512
  eblock : c.sblock < maxBlocks → c.eblock = (c.off + c.sz) / 512

/-- The number of requested bytes before file block `B`. -/
def WriteRequest.done (c : WriteRequest) (B : ℕ) : ℕ := min c.sz (512 * B - c.off)

/-- The byte at file offset `x` is one of the requested bytes. -/
def WriteRequest.Covers (c : WriteRequest) (x : ℕ) : Prop := c.off ≤ x ∧ x < c.off + c.sz

instance (c : WriteRequest) (x : ℕ) : Decidable (c.Covers x) :=
  inferInstanceAs (Decidable (c.off ≤ x ∧ x < c.off + c.sz))

/-- The shared record of a write that stands at block `sa.boff`. -/
structure WritePos (c : WriteRequest) (sa : ShareArg) : Prop where
  w : sa.w = true
  sblock : sa.sblock = c.sblock
  eblock : sa.eblock = c.eblock
  mem : sa.mem = c.src
  buf : sa.buf = c.done sa.boff
  left : sa.left = c.sz - c.done sa.boff
  off : 0 < sa.left → sa.off % 512 = max c.off (512 * sa.boff) % 512

variable {c : WriteRequest} {sa : ShareArg} {l : ℕ}

/-- The end of the coverage of a pointer is computed without wrap-around. -/
theorem eblock_eq (hl : l ≤ 2) (hroom : sa.boff + 128 ^ l ≤ maxBlocks) :
    u32 (sa.boff + coverage l) = sa.boff + 128 ^ l := by
  rw [coverage_eq hl]
  exact u32_of_lt (by simp only [maxBlocks] at hroom; omega)

/-- The byte count of a skipped or missing subtree of `n` blocks. -/
theorem coverageBytes_eq {B n : ℕ} (hroom : B + n ≤ maxBlocks) :
    u32 (sub32 (B + n) B * 512) = n * 512 := by
  simp only [maxBlocks] at hroom
  have hsub : sub32 (B + n) B = n := by
    rw [sub32, show B + n + (4294967296 - B) = n + 4294967296 by omega, u32, Nat.add_mod_right]
    exact Nat.mod_eq_of_lt (by omega)
  rw [hsub]
  exact u32_of_lt (by omega)

/-- Cutting to 32 bits does not change the position inside a block. -/
theorem u32_mod_block (n : ℕ) : u32 n % 512 = n % 512 :=
  Nat.mod_mod_of_dvd n (by decide)

/-- Blocks in front of the request or behind it add no requested bytes. -/
theorem WriteRequest.done_of_out {B n : ℕ} (hout : 512 * (B + n) ≤ c.off ∨ c.off + c.sz ≤ 512 * B) :
    c.done (B + n) = c.done B := by
  rw [WriteRequest.done, WriteRequest.done]
  rcases hout with hfront | hbehind
  · rw [Nat.sub_eq_zero_of_le hfront, Nat.sub_eq_zero_of_le (by omega)]
  · rw [Nat.min_eq_left (by omega), Nat.min_eq_left (by omega)]

/-- Skipping a subtree of `n` blocks outside the block range keeps the position, and no requested
byte lies in the subtree. -/
theorem WritePos.skip {n : ℕ} (hvalid : c.Valid) (hpos : WritePos c sa)
    (hroom : sa.boff + n ≤ maxBlocks)
    (hskip : ¬(sa.boff ≤ sa.eblock ∧ sa.sblock < sa.boff + n)) :
    WritePos c { sa with
        boff := sa.boff + n
        off := u32 (sa.off + u32 (sub32 (sa.boff + n) sa.boff * 512)) } ∧
      ∀ k, sa.boff ≤ k → k < sa.boff + n →
        ¬(c.sblock ≤ k ∧ k ≤ c.eblock) ∧ ∀ r < 512, ¬c.Covers (512 * k + r) := by
  obtain ⟨hw, hs, he, hmem, hbuf, hleft, hoff⟩ := hpos
  rw [he, hs] at hskip
  rw [coverageBytes_eq hroom]
  -- The subtree ends in front of the request, or starts behind it.
  have hout : 512 * (sa.boff + n) ≤ c.off ∨ c.off + c.sz ≤ 512 * sa.boff := by
    have hvs := hvalid.sblock
    have hve := hvalid.eblock
    simp only [maxBlocks] at hroom hve
    omega
  have hdone := WriteRequest.done_of_out hout
  refine ⟨⟨hw, hs, he, hmem, by rw [hdone, hbuf], by rw [hdone, hleft], fun hmore => ?_⟩,
    fun k hk hk' => ⟨by omega, fun r hr => ?_⟩⟩
  · simp only at hmore ⊢
    rw [u32_mod_block, Nat.add_mul_mod_self_right, hoff hmore]
    have hfront : 512 * (sa.boff + n) ≤ c.off := by
      refine hout.resolve_right fun hbehind => ?_
      rw [hleft, WriteRequest.done, Nat.min_eq_left (by omega)] at hmore
      omega
    rw [Nat.max_eq_left hfront, Nat.max_eq_left (by omega)]
  · simp only [WriteRequest.Covers]
    omega

/-- In a visited block the bytes still to be transferred start at the request or at the block, whichever
is later. -/
theorem WritePos.start_eq (hvalid : c.Valid) (hpos : WritePos c sa) (hvisit : sa.sblock < sa.boff + 1)
    (hleft : 0 < sa.left) : 512 * sa.boff + sa.off % 512 = max c.off (512 * sa.boff) := by
  have hs := hvalid.sblock
  rw [hpos.sblock] at hvisit
  rw [hpos.off hleft]
  omega

/-- A visited block adds the requested bytes from the first one in it on. -/
theorem WriteRequest.done_succ {B start : ℕ}
    (hfirst : 0 < c.sz - c.done B → 512 * B + start = max c.off (512 * B)) :
    c.done (B + 1) = c.done B + min (c.sz - c.done B) (512 - start) := by
  by_cases hend : c.sz ≤ 512 * B - c.off
  · rw [WriteRequest.done, WriteRequest.done, Nat.min_eq_left hend, Nat.min_eq_left (by omega),
      Nat.sub_self, Nat.zero_min, Nat.add_zero]
  · have hB : c.done B = 512 * B - c.off := Nat.min_eq_right (by omega)
    rw [hB] at hfirst ⊢
    have hstart := hfirst (by omega)
    rw [WriteRequest.done]
    rcases Nat.le_total c.off (512 * B) with hold | hnew
    · rw [Nat.max_eq_right hold] at hstart
      omega
    · rw [Nat.max_eq_left hnew] at hstart
      omega

/-- Where a data block inside the block range is patched. -/
theorem WritePos.data (hvalid : c.Valid) (hpos : WritePos c sa) (hvisit : sa.sblock < sa.boff + 1)
    {start sz : ℕ} (hstart : start = sa.off % 512)
    (hsz : sz = if sa.left < 512 - start then sa.left else 512 - start) :
    WritePos c { sa with
        buf := sa.buf + sz
        left := sa.left - sz
        off := u32 (sa.off + sz)
        boff := sa.boff + 1 } ∧
      ∀ i < 512, (start ≤ i ∧ i < start + sz ↔ c.Covers (512 * sa.boff + i)) ∧
        (c.Covers (512 * sa.boff + i) → sa.buf + (i - start) = 512 * sa.boff + i - c.off) := by
  have hfirst := hpos.start_eq hvalid hvisit
  rw [← hstart] at hfirst
  have hcut : sz = min sa.left (512 - start) := by rw [hsz, Nat.min_def]; split <;> split <;> omega
  obtain ⟨hw, hs, he, hmem, hbuf, hleft, -⟩ := hpos
  have hdone : c.done (sa.boff + 1) = c.done sa.boff + sz := by
    rw [hcut, hleft]
    exact WriteRequest.done_succ (hleft ▸ hfirst)
  refine ⟨⟨hw, hs, he, hmem, by rw [hdone, hbuf], ?_, fun hmore => ?_⟩, fun i hi => ?_⟩
  · rw [hdone, hleft, Nat.sub_sub]
  · simp only at hmore ⊢
    rw [u32_mod_block]
    have hstart' := hfirst (by omega)
    omega
  · rw [WriteRequest.Covers]
    rcases Nat.eq_zero_or_pos sa.left with hnone | hmore
    · -- All bytes of the request lie before the block.
      rw [hnone, Nat.zero_min] at hcut
      rw [hnone, WriteRequest.done] at hleft
      omega
    · have hstart' := hfirst hmore
      rw [WriteRequest.done] at hbuf hleft
      rw [hbuf]
      omega

end Hobby386
