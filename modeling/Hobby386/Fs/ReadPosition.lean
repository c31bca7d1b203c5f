import Hobby386.Fs.WritePosition

/-!
# The position of a read

A read puts its bytes into the buffer in the order of the file. It starts at the first block of
the missing subtree that covers its offset, which may lie before the offset, and fills that
subtree with zeros by whole blocks; from then on it keeps the distance it has fallen behind.
One predicate describes the record from the first block on, and determines every byte of the
buffer.
-/

namespace Hobby386

open PointerForest

/-- The positions of the missing subtree that covers file block `k` of an inode, if any. -/
def Fs.missing (fs : Fs) (inum k : ℕ) : Option (ℕ × ℕ) :=
  hole Block.ptrs nptrsPerBlock fs.disk (fs.dinode inum).forest 0 k

/-- The request of a read, clipped to the size of the file. -/
structure ReadRequest where
  fs : Fs
  inum : ℕ
  off : ℕ
  sz : ℕ
  mem : Memory

namespace ReadRequest

variable (c : ReadRequest)

/-- The file block of the first byte. -/
abbrev sblock : ℕ := c.off / 512

/-- The file block behind the last byte. -/
abbrev eblock : ℕ := (c.off + c.sz) / 512

/-- The block where the transfer starts: the first block of the missing subtree at the offset. -/
def start : ℕ := ((c.fs.missing c.inum c.sblock).map Prod.fst).getD c.sblock

/-- From the start to block `B` nothing is mapped. -/
def Lead (B : ℕ) : Prop := ∀ k < B, c.start ≤ k → c.fs.fileBlock c.inum k = 0

instance (B : ℕ) : Decidable (c.Lead B) :=
  inferInstanceAs (Decidable (∀ k < B, c.start ≤ k → c.fs.fileBlock c.inum k = 0))

/-- The bytes the blocks from the start to `B` provide. -/
def avail (B : ℕ) : ℕ :=
  if c.Lead B then 512 * (B - c.start) else 512 * (B - c.start) - c.off % 512

/-- The bytes transferred when the traversal stands at block `B`. -/
def done (B : ℕ) : ℕ := min c.sz (c.avail B)

/-- Byte `j` of the result: zero up to the first mapped block, counted in whole blocks, then the
contents from the start on. -/
def out (j : ℕ) : UInt8 :=
  if c.Lead (c.start + j / 512 + 1) then 0
  else c.fs.content c.inum (512 * c.start + c.off % 512 + j)

end ReadRequest

/-- The record of a read that has reached its first block. -/
structure ReadRunning (c : ReadRequest) (sa : ShareArg) : Prop where
  start_le : c.start ≤ c.sblock
  reached : c.start ≤ sa.boff
  buf : sa.buf = c.done sa.boff
  left : sa.left = c.sz - c.done sa.boff
  off : 0 < sa.left → sa.off % 512 = if c.Lead sa.boff then c.off % 512 else 0
  mem : ∀ j, sa.mem j = if j < sa.buf then c.out j else c.mem j

/-- The record of a read at any point of the traversal. -/
structure ReadPos (c : ReadRequest) (sa : ShareArg) : Prop where
  w : sa.w = false
  sblock : sa.sblock = c.sblock
  eblock : sa.eblock = c.eblock
  waiting : sa.boff ≤ c.sblock →
    sa.buf = 0 ∧ sa.left = c.sz ∧ sa.off % 512 = c.off % 512 ∧ sa.mem = c.mem
  running : c.sblock < sa.boff → ReadRunning c sa

namespace ReadRequest

variable {c : ReadRequest} {B n : ℕ}

/-- Once a block is mapped, the leading hole has ended. -/
theorem Lead.anti {A : ℕ} (h : c.Lead B) (hAB : A ≤ B) : c.Lead A :=
  fun k hk hs => h k (by omega) hs

/-- Unmapped blocks extend the leading hole. -/
theorem lead_add (hnull : ∀ k, B ≤ k → k < B + n → c.fs.fileBlock c.inum k = 0) :
    c.Lead (B + n) ↔ c.Lead B := by
  refine ⟨fun h => h.anti (Nat.le_add_right B n), fun h k hk hs => ?_⟩
  rcases Nat.lt_or_ge k B with hlt | hge
  · exact h k hlt hs
  · exact hnull k hge hk

/-- The leading hole is not over at the start. -/
theorem lt_of_not_lead (h : ¬c.Lead B) : c.start < B := by
  by_contra hge
  exact h fun k hk hs => by omega

/-- Unmapped blocks provide whole blocks of zeros. -/
theorem avail_add (hreached : c.start ≤ B)
    (hnull : ∀ k, B ≤ k → k < B + n → c.fs.fileBlock c.inum k = 0) :
    c.avail (B + n) = c.avail B + 512 * n := by
  simp only [avail, lead_add hnull]
  split
  · omega
  · rename_i hlead
    have hlt := lt_of_not_lead hlead
    omega

/-- A mapped block ends the leading hole. -/
theorem not_lead_succ (hreached : c.start ≤ B) (hmap : c.fs.fileBlock c.inum B ≠ 0) :
    ¬c.Lead (B + 1) := fun h => hmap (h B (Nat.lt_succ_self B) hreached)

/-- A mapped block provides its bytes from the position in the block on. -/
theorem avail_succ (hreached : c.start ≤ B) (hmap : c.fs.fileBlock c.inum B ≠ 0) :
    c.avail (B + 1) = c.avail B + (512 - if c.Lead B then c.off % 512 else 0) := by
  rw [avail, if_neg (not_lead_succ hreached hmap), avail]
  split
  · omega
  · rename_i hlead
    have hlt := lt_of_not_lead hlead
    omega

/-- Behind the block range everything has been transferred. -/
theorem done_eq_sz (hstart : c.start ≤ c.sblock) (h : c.eblock < B) : c.done B = c.sz := by
  apply Nat.min_eq_left
  simp only [sblock, eblock] at hstart h
  simp only [avail]
  split <;> omega

/-- An unmapped position in the contents. -/
theorem content_of_null {x : ℕ} (h : c.fs.fileBlock c.inum (x / 512) = 0) :
    c.fs.content c.inum x = 0 := by
  rw [Fs.content, if_pos h]

/-- Inside a run of unmapped blocks the result is zero. -/
theorem out_null (hreached : c.start ≤ B)
    (hnull : ∀ k, B ≤ k → k < B + n → c.fs.fileBlock c.inum k = 0) {j : ℕ} (hlow : c.avail B ≤ j)
    (hhigh : j < c.avail (B + n)) : c.out j = 0 := by
  rw [avail_add hreached hnull] at hhigh
  rw [out]
  by_cases hlead : c.Lead B
  · rw [avail, if_pos hlead] at hlow hhigh
    rw [if_pos (((lead_add hnull).mpr hlead).anti (by omega))]
  · have hlt := lt_of_not_lead hlead
    rw [avail, if_neg hlead] at hlow hhigh
    split
    · rfl
    · exact content_of_null (hnull _ (by omega) (by omega))

/-- Inside a mapped block the result is the data of the block. -/
theorem out_data (hreached : c.start ≤ B) (hmap : c.fs.fileBlock c.inum B ≠ 0) {j : ℕ}
    (hlow : c.avail B ≤ j) (hhigh : j < c.avail (B + 1)) :
    c.out j = (c.fs.disk (c.fs.fileBlock c.inum B)).get
      ((if c.Lead B then c.off % 512 else 0) + (j - c.avail B)) := by
  rw [avail_succ hreached hmap] at hhigh
  have hpos : (512 * c.start + c.off % 512 + j) / 512 = B ∧
      (512 * c.start + c.off % 512 + j) % 512 =
        (if c.Lead B then c.off % 512 else 0) + (j - c.avail B) ∧ B ≤ c.start + j / 512 + 1 ∧
        (c.Lead B → B ≤ c.start + j / 512) := by
    by_cases hlead : c.Lead B
    · simp only [avail, if_pos hlead] at hlow hhigh ⊢
      omega
    · have hlt := lt_of_not_lead hlead
      simp only [avail, if_neg hlead] at hlow hhigh ⊢
      exact ⟨by omega, by omega, by omega, fun h => absurd h hlead⟩
  obtain ⟨hdiv, hmod, hle, hlead⟩ := hpos
  have hover : ¬c.Lead (c.start + j / 512 + 1) := by
    intro h
    exact not_lead_succ hreached hmap (h.anti (by have := hlead (h.anti hle); omega))
  rw [out, if_neg hover, Fs.content, blockSize, hdiv, hmod, if_neg hmap]

end ReadRequest

variable {c : ReadRequest} {sa : ShareArg} {n : ℕ}

/-- Storing the next bytes of the result. -/
theorem ReadRunning.advance (h : ReadRunning c sa) {sz off B : ℕ} {new : Memory} (hle : sa.boff ≤ B)
    (hbuf : sa.buf + sz = c.done B)
    (hoff : 0 < sa.left - sz → off % 512 = if c.Lead B then c.off % 512 else 0)
    (hnew : ∀ j, sa.buf ≤ j → j < sa.buf + sz → new j = c.out j) :
    ReadRunning c { sa with
      mem := fun j => if sa.buf ≤ j ∧ j < sa.buf + sz then new j else sa.mem j
      buf := sa.buf + sz
      left := sa.left - sz
      off := off
      boff := B } := by
  refine ⟨h.start_le, h.reached.trans hle, hbuf, ?_, hoff, fun j => ?_⟩
  · have hold := h.buf
    have hleft := h.left
    dsimp only
    omega
  · dsimp only
    split
    · rename_i hin
      rw [if_pos hin.2, hnew j hin.1 hin.2]
    · rw [h.mem j]
      exact if_congr (by omega) rfl rfl

/-- Filling a run of unmapped blocks with zeros. -/
theorem ReadRunning.hole (h : ReadRunning c sa)
    (hnull : ∀ k, sa.boff ≤ k → k < sa.boff + n → c.fs.fileBlock c.inum k = 0) {sz : ℕ}
    (hsz : sz = if sa.left < n * 512 then sa.left else n * 512) :
    ReadRunning c { sa with
      mem := memset sa.mem sa.buf 0 sz
      buf := sa.buf + sz
      left := sa.left - sz
      off := u32 (sa.off + sz)
      boff := sa.boff + n } := by
  have hbuf := h.buf
  have hleft := h.left
  have havail := ReadRequest.avail_add h.reached hnull
  have hbuf' : sa.buf + sz = c.done (sa.boff + n) := by
    simp only [ReadRequest.done, havail] at hbuf hleft ⊢
    split at hsz <;> omega
  refine h.advance (Nat.le_add_right _ _) hbuf' (fun hpos => ?_) fun j hlow hhigh => ?_
  · rw [u32_mod_block, if_congr (ReadRequest.lead_add hnull) rfl rfl, ← h.off (by omega)]
    split at hsz <;> omega
  · refine (ReadRequest.out_null h.reached hnull ?_ ?_).symm
    · simp only [ReadRequest.done] at hbuf hbuf' hleft
      omega
    · simp only [ReadRequest.done] at hbuf'
      omega

/-- Copying the data of a mapped block. -/
theorem ReadRunning.data (h : ReadRunning c sa) (hmap : c.fs.fileBlock c.inum sa.boff ≠ 0) {start sz : ℕ}
    (hs : start = sa.off % 512) (hsz : sz = if sa.left < 512 - start then sa.left else 512 - start) :
    ReadRunning c { sa with
      mem := memcpy sa.mem sa.buf (c.fs.disk (c.fs.fileBlock c.inum sa.boff)).get start sz
      buf := sa.buf + sz
      left := sa.left - sz
      off := u32 (sa.off + sz)
      boff := sa.boff + 1 } := by
  have hbuf := h.buf
  have hleft := h.left
  have hoff := h.off
  have havail := ReadRequest.avail_succ h.reached hmap
  have hlead := ReadRequest.not_lead_succ h.reached hmap
  have hout (j : ℕ) := ReadRequest.out_data h.reached hmap (j := j)
  generalize (if c.Lead sa.boff then c.off % 512 else 0) = m at *
  have hbuf' : sa.buf + sz = c.done (sa.boff + 1) := by
    simp only [ReadRequest.done, havail] at hbuf hleft ⊢
    rcases Nat.eq_zero_or_pos sa.left with hzero | hpos
    · split at hsz <;> omega
    · have hoff := hoff hpos
      split at hsz <;> omega
  refine h.advance (Nat.le_succ _) hbuf' (fun hpos => ?_) fun j hlow hhigh => ?_
  · have hoff := hoff (by omega)
    rw [u32_mod_block, if_neg hlead]
    split at hsz <;> omega
  · have hpos : 0 < sa.left := by split at hsz <;> omega
    have hend : sa.buf = c.avail sa.boff := by
      simp only [ReadRequest.done] at hbuf hleft
      omega
    rw [hout j (by omega), hs, hoff hpos, hend]
    simp only [ReadRequest.done] at hbuf'
    omega

/-- Passing blocks behind the block range. -/
theorem ReadRunning.skip (h : ReadRunning c sa) (hbehind : c.eblock < sa.boff) (n off : ℕ) :
    ReadRunning c { sa with boff := sa.boff + n, off := off } := by
  obtain ⟨hstart, hreached, hbuf, hleft, hoff, hmem⟩ := h
  have hdone := ReadRequest.done_eq_sz hstart hbehind
  have hdone' : c.done (sa.boff + n) = c.sz := ReadRequest.done_eq_sz hstart (by omega)
  rw [hdone] at hbuf hleft
  exact ⟨hstart, by simp only; omega, by rw [hdone', hbuf], by rw [hdone', hleft],
    fun hpos => by simp only at hpos; omega, hmem⟩

/-- A read enters its first block. -/
theorem ReadPos.enter (h : ReadPos c sa) (hstart : c.start ≤ c.sblock)
    (hfirst : sa.boff ≤ c.sblock → c.start = sa.boff) : ReadRunning c sa := by
  rcases Nat.lt_or_ge c.sblock sa.boff with hlt | hge
  · exact h.running hlt
  · have hboff := hfirst hge
    obtain ⟨hbuf, hleft, hoff, hmem⟩ := h.waiting hge
    have hlead : c.Lead sa.boff := fun k hk hs => by omega
    have hdone : c.done sa.boff = 0 := by
      rw [ReadRequest.done, ReadRequest.avail, if_pos hlead, hboff]
      simp
    refine ⟨hstart, hboff.le, by rw [hbuf, hdone], by rw [hleft, hdone, Nat.sub_zero], fun _ => ?_, ?_⟩
    · rw [hoff, if_pos hlead]
    · intro j
      rw [hmem, hbuf, if_neg (Nat.not_lt_zero j)]

end Hobby386
