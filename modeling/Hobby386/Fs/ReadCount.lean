import Hobby386.Fs.ReadFile

/-!
# The byte count of a read

A read returns the number of bytes up to the end of the file, and stores to that many positions
of the buffer from its start on, whatever holes the file has. The counter of the bytes that are
left is only ever decreased by what is still left. For this an observer watches every call of
`recursive_rw` and stops the one that has taken more from the counter than was there.
-/

namespace Hobby386

open PointerForest

/-- A call of `recursive_rw`, stopped when it has not taken from `left` the bytes by which it has
moved `buf`, as it does when `left` underflows. -/
def watchLeft (rw : RwFn) : RwFn := fun pp sa fs => do
  let r ← rw pp sa fs
  if r.sa.buf + r.sa.left = sa.buf + sa.left then .ok r else .error .stopped

/-- `recursive_rw` with every call watched. -/
def watchedRw (alloc : Allocator) : (ilevel : ℕ) → RwFn
  | 0 => watchLeft (rwBody alloc (fun pp sa fs => .ok ⟨0, pp, sa, fs⟩) 0)
  | ilevel + 1 => watchLeft (rwBody alloc (watchedRw alloc ilevel) (ilevel + 1))

/-- What a call takes from `left` it adds to `buf`. -/
def KeepsSum (rw : RwFn) : Prop :=
  ∀ (p : ℕ) (sa : ShareArg) (fs : Fs) (r : RwOut), rw p sa fs = .ok r →
    r.sa.buf + r.sa.left = sa.buf + sa.left

/-- A loop keeps the sum of the bytes stored and left if its steps do. -/
theorem keepsSum_loop {rw : ℕ → RwFn} (hrw : ∀ i, KeepsSum (rw i)) {i : ℕ} {ps : List ℕ} {sa : ShareArg}
    {fs : Fs} {t : RwLoop} (h : rwPtrs rw i ps sa fs = .ok t) :
    t.sa.buf + t.sa.left = sa.buf + sa.left := by
  induction ps generalizing i sa fs t with
  | nil =>
    cases h
    rfl
  | cons p ps ih =>
    rw [rwPtrs, bind_eq_ok] at h
    obtain ⟨r, hcall, h⟩ := h
    have hfirst := hrw i p sa fs r hcall
    split at h
    · rw [bind_eq_ok] at h
      obtain ⟨t', hloop, h⟩ := h
      cases h
      exact (ih hloop).trans hfirst
    · cases h
      exact hfirst

/-- The hole branch clips the subtree to what is left. -/
theorem keepsSum_rwHole (sblock eblock : ℕ) (sa : ShareArg) :
    (rwHole sblock eblock sa).buf + (rwHole sblock eblock sa).left = sa.buf + sa.left := by
  simp only [rwHole]
  split <;> omega

/-- The data block branch clips the block to what is left. -/
theorem keepsSum_rwData (eblock pp : ℕ) (sa : ShareArg) (fs : Fs) :
    (rwData eblock pp sa fs).sa.buf + (rwData eblock pp sa fs).sa.left = sa.buf + sa.left := by
  have hsum : sa.buf + (if sa.left < blockSize - sa.off % blockSize then sa.left
        else blockSize - sa.off % blockSize) +
      (sa.left - if sa.left < blockSize - sa.off % blockSize then sa.left
        else blockSize - sa.off % blockSize) = sa.buf + sa.left := by
    split <;> omega
  rw [rwData]
  split <;> exact hsum

/-- An indirect block keeps the sum if the level below does. -/
theorem keepsSum_rwIndirect {below : RwFn} (hbelow : KeepsSum below) : KeepsSum (rwIndirect below) := by
  intro p sa fs r h
  rw [rwIndirect, bind_eq_ok] at h
  obtain ⟨t, hloop, h⟩ := h
  have hsum := keepsSum_loop (fun _ => hbelow) hloop
  split at h
  · cases h
    exact hsum
  · split at h <;> cases h <;> exact hsum

/-- The body of the traversal keeps the sum if the level below does. -/
theorem keepsSum_rwBody {alloc : Allocator} {below : RwFn} (hbelow : KeepsSum below) (l : ℕ) :
    KeepsSum (rwBody alloc below l) := by
  intro p sa fs r h
  rw [rwBody] at h
  split at h
  · cases h
    rfl
  · split at h
    · rw [bind_eq_ok] at h
      obtain ⟨a, -, h⟩ := h
      split at h
      · cases h
        rfl
      · split at h
        · cases h
          exact keepsSum_rwData _ _ _ _
        · exact keepsSum_rwIndirect hbelow _ _ _ _ h
    · split at h
      · cases h
        exact keepsSum_rwHole _ _ _
      · split at h
        · cases h
          exact keepsSum_rwData _ _ _ _
        · exact keepsSum_rwIndirect hbelow _ _ _ _ h

/-- The traversal keeps the sum. -/
theorem keepsSum_recursiveRw (alloc : Allocator) (l : ℕ) : KeepsSum (recursiveRw alloc l) := by
  induction l with
  | zero =>
    refine keepsSum_rwBody ?_ 0
    intro p sa fs r h
    cases h
    rfl
  | succ l ih => exact keepsSum_rwBody ih (l + 1)

/-- The observer has no influence on a call that keeps the sum. -/
theorem watchLeft_eq {rw : RwFn} (h : KeepsSum rw) : watchLeft rw = rw := by
  funext p sa fs
  rw [watchLeft]
  cases hcall : rw p sa fs with
  | error e => rfl
  | ok r => rw [ok_bind, if_pos (h p sa fs r hcall)]

/-- No call of `recursive_rw` is ever stopped. -/
theorem watchedRw_eq (alloc : Allocator) (l : ℕ) : watchedRw alloc l = recursiveRw alloc l := by
  induction l with
  | zero => exact watchLeft_eq (keepsSum_recursiveRw alloc 0)
  | succ l ih =>
    rw [watchedRw, ih]
    exact watchLeft_eq (keepsSum_recursiveRw alloc (l + 1))

/-- A read returns the number of bytes up to the end of the file and stores to exactly that many
positions of the buffer: what it stores does not depend on the buffer, which is left as it is behind
them. The bytes left never become less than none. -/
theorem fsRead_count {fs : Fs} {inum : ℕ} (hwf : WellFormed fs) (halloc : fs.Allocated inum)
    (hsize : (fs.dinode inum).size ≤ maxBytes) {sz : ℤ} (hsz : 0 ≤ sz) (hint : sz ≤ 0x7fffffff)
    (off : ℕ) :
    (∃ (n : ℕ) (data : ℕ → UInt8),
      n = (if (fs.dinode inum).size ≤ off then 0 else min sz.toNat ((fs.dinode inum).size - off)) ∧
      ∀ buf : Memory, fsRead fs inum buf sz off = .ok (n, fun j => if j < n then data j else
        buf j, fs)) ∧
    ∀ l, watchedRw bitmapAlloc l = recursiveRw bitmapAlloc l := by
  obtain ⟨sz, rfl⟩ := Int.eq_ofNat_of_zero_le hsz
  have hinum : inum < 200 := hwf.layout.ninodes ▸ halloc.1
  refine ⟨⟨readSize fs inum sz off, (readRequest fs inum (fun _ => 0) sz off).out, ?_, fun buf => ?_⟩,
    watchedRw_eq bitmapAlloc⟩
  · rw [Int.toNat_natCast, readSize]
    split <;> omega
  · exact fsRead_spec hwf.init hwf.layout hinum buf (by omega) (.inl hsize)

/-- The count of a read that starts in a hole. -/
theorem fsRead_count_hole :
    (∃ (n : ℕ) (data : ℕ → UInt8),
      n = (if (holeThenData.dinode 2).size ≤ 100 then 0
        else min (500 : ℤ).toNat ((holeThenData.dinode 2).size - 100)) ∧
      ∀ buf : Memory, fsRead holeThenData 2 buf 500 100 =
        .ok (n, fun j => if j < n then data j else buf j, holeThenData)) ∧
    ∀ l, watchedRw bitmapAlloc l = recursiveRw bitmapAlloc l :=
  fsRead_count wellFormed_holeThenData allocated_holeThenData
    (by rw [dinode_holeThenData]; decide) (by decide) (by decide) 100

end Hobby386
