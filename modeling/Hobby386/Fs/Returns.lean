import Hobby386.Fs.Traverse

/-!
# Reads and writes return

No call of `fs_read` or `fs_write` on a mounted file system gets stuck: the assertions hold and
no store leaves its array, as long as the bitmap fits in its block.
-/

namespace Hobby386

/-- A traversal returns, and keeps the globals apart from the disk and the messages. -/
def Returns (rw : RwFn) : Prop :=
  ∀ (p : ℕ) (sa : ShareArg) (fs : Fs), fs.su.nblockDat ≤ 4096 →
    ∃ r, rw p sa fs = .ok r ∧ r.fs = { fs with disk := r.fs.disk }

/-- An allocation keeps the globals. -/
theorem bitmapAlloc_keeps {fs : Fs} (h : fs.su.nblockDat ≤ 4096) :
    ∃ r, bitmapAlloc fs = .ok r ∧ r.2 = { fs with disk := r.2.disk } := by
  obtain ⟨r, hr⟩ := bitmapAlloc_returns h
  refine ⟨r, hr, ?_⟩
  rw [bitmapAlloc, bind_eq_ok] at hr
  obtain ⟨o, -, hr⟩ := hr
  cases o with
  | none =>
    cases hr
    rfl
  | some i =>
    dsimp only at hr
    split at hr
    · cases hr
      rfl
    · split at hr
      · cases hr
      · cases hr
        rfl

/-- An allocation returns and changes the disk only. -/
theorem rwAlloc_keeps {fs : Fs} (h : fs.su.nblockDat ≤ 4096) (l p : ℕ) :
    ∃ r, rwAlloc bitmapAlloc l p fs = .ok r ∧ r.2 = { fs with disk := r.2.disk } := by
  rw [rwAlloc]
  split
  · obtain ⟨r, hr, hkeep⟩ := bitmapAlloc_keeps h
    rw [hr, ok_bind]
    split
    · exact ⟨_, rfl, hkeep⟩
    · split
      · exact ⟨r, rfl, hkeep⟩
      · refine ⟨_, rfl, ?_⟩
        rw [hkeep]
        rfl
  · exact ⟨_, rfl, rfl⟩

/-- A loop of calls that return returns. -/
theorem rwPtrs_returns {rw : ℕ → RwFn} (hrw : ∀ i, Returns (rw i)) (i : ℕ) (ps : List ℕ) (sa : ShareArg)
    {fs : Fs} (h : fs.su.nblockDat ≤ 4096) :
    ∃ t, rwPtrs rw i ps sa fs = .ok t ∧ t.fs = { fs with disk := t.fs.disk } := by
  induction ps generalizing i sa fs with
  | nil => exact ⟨_, rfl, rfl⟩
  | cons p ps ih =>
    obtain ⟨r, hr, hkeep⟩ := hrw i p sa fs h
    rw [rwPtrs, hr, ok_bind]
    split
    · have hsu : r.fs.su = fs.su := by rw [hkeep]
      obtain ⟨t, ht, hkeep'⟩ := ih (i + 1) r.sa (hsu ▸ h)
      rw [ht, ok_bind]
      refine ⟨_, rfl, ?_⟩
      dsimp only
      rw [hkeep', hkeep]
    · exact ⟨_, rfl, hkeep⟩

/-- The body of the traversal returns if the level below does. -/
theorem returns_rwBody {below : RwFn} (hbelow : Returns below) (l : ℕ) :
    Returns (rwBody bitmapAlloc below l) := by
  have indirect (q : ℕ) (sa : ShareArg) (fs : Fs) (h : fs.su.nblockDat ≤ 4096) :
      ∃ r, rwIndirect below q sa fs = .ok r ∧ r.fs = { fs with disk := r.fs.disk } := by
    obtain ⟨t, ht, hkeep⟩ := rwPtrs_returns (fun _ => hbelow) 0 (fs.diskRead q).ptrs sa h
    have hwrite (b : Block) : t.fs.diskWrite q b = { fs with disk := (t.fs.diskWrite q b).disk } := by
      rw [hkeep]
      rfl
    rw [rwIndirect, ht, ok_bind]
    split
    · exact ⟨_, rfl, hwrite _⟩
    · split
      · exact ⟨_, rfl, hwrite _⟩
      · exact ⟨_, rfl, hkeep⟩
  have data (e q : ℕ) (sa : ShareArg) (fs : Fs) :
      (rwData e q sa fs).fs = { fs with disk := (rwData e q sa fs).fs.disk } := by
    rw [rwData]
    dsimp only
    split <;> rfl
  intro p sa fs h
  rw [rwBody]
  split
  · exact ⟨_, rfl, rfl⟩
  · split
    · obtain ⟨a, ha, hkeep⟩ := rwAlloc_keeps h l p
      have hsu : a.2.su = fs.su := by rw [hkeep]
      rw [ha, ok_bind]
      split
      · exact ⟨_, rfl, hkeep⟩
      · split
        · refine ⟨_, rfl, ?_⟩
          rw [data, hkeep]
        · obtain ⟨r, hr, hkeep'⟩ := indirect a.1 sa a.2 (hsu ▸ h)
          refine ⟨r, hr, ?_⟩
          rw [hkeep', hkeep]
    · split
      · exact ⟨_, rfl, rfl⟩
      · split
        · exact ⟨_, rfl, data _ _ _ _⟩
        · exact indirect p sa fs h

/-- The traversal returns. -/
theorem returns_recursiveRw (l : ℕ) : Returns (recursiveRw bitmapAlloc l) := by
  induction l with
  | zero => exact returns_rwBody (fun p sa fs _ => ⟨_, rfl, rfl⟩) 0
  | succ l ih => exact returns_rwBody ih (l + 1)

/-- Reading an inode changes no global but the messages. -/
theorem readInode_keeps (fs : Fs) (inum : ℕ) :
    (readInode fs inum).2.disk = fs.disk ∧ (readInode fs inum).2.su = fs.su ∧
      (readInode fs inum).2.init = fs.init := by
  rw [readInode, rwInode]
  split
  · exact ⟨rfl, rfl, rfl⟩
  · split <;> exact ⟨rfl, rfl, rfl⟩

/-- An inode that could be read can be written. -/
theorem writeInode_of_readInode {fs fs₁ fs₂ : Fs} {inum : ℕ} {di : Dinode}
    (h : readInode fs inum = (some di, fs₁)) (hkeep : fs₂.su = fs.su ∧ fs₂.init = fs.init) (p : Dinode) :
    ∃ q fs₃, writeInode fs₂ inum p = (some q, fs₃) := by
  rw [readInode, rwInode] at h
  rw [writeInode, rwInode, hkeep.1, hkeep.2]
  split at h
  · cases h
  · rename_i hinit
    rw [if_neg hinit]
    split at h
    · cases h
    · rename_i hlt
      rw [if_neg hlt]
      exact ⟨_, _, rfl⟩

/-- `inode_rw` returns. -/
theorem inodeRw_returns {fs : Fs} (h : fs.su.nblockDat ≤ 4096) (inum : ℕ) (buf : Memory) (sz : ℤ)
    (off : ℕ) (w : Bool) : ∃ r, inodeRw bitmapAlloc fs inum buf sz off w = .ok r := by
  rw [inodeRw]
  dsimp only
  split
  · exact ⟨_, rfl⟩
  · split
    · exact ⟨_, rfl⟩
    · have hkeep := readInode_keeps fs inum
      cases hread : readInode fs inum with
      | mk o fs₁ =>
        rw [hread] at hkeep
        cases o with
        | none => exact ⟨_, rfl⟩
        | some di =>
          dsimp only
          split
          · exact ⟨_, rfl⟩
          · obtain ⟨t, ht, hsame⟩ := rwPtrs_returns
              (fun i => returns_recursiveRw (getIlevel i)) 0 di.ptrs _ (hkeep.2.1 ▸ h)
            rw [ht, ok_bind]
            cases w with
            | false => exact ⟨_, rfl⟩
            | true =>
              have hglobals : t.fs.su = fs.su ∧ t.fs.init = fs.init := by
                rw [hsame]
                exact hkeep.2
              obtain ⟨q, fs₃, hwrite⟩ := writeInode_of_readInode hread hglobals
                { di with
                  ptrs := t.ptrs
                  size := if u32 (off + sub32 (bits32 sz) t.sa.left) < di.size then di.size
                    else u32 (off + sub32 (bits32 sz) t.sa.left) }
              simp only [Bool.true_eq_false, false_and, if_false, if_true]
              rw [hwrite]
              exact ⟨_, rfl⟩

/-- `fs_write` returns. -/
theorem fsWrite_returns {fs : Fs} (h : fs.su.nblockDat ≤ 4096) (inum : ℕ) (buf : Memory) (sz : ℤ)
    (off : ℕ) : ∃ r, fsWrite fs inum buf sz off = .ok r := by
  obtain ⟨r, hr⟩ := inodeRw_returns h inum buf sz off true
  exact ⟨_, by rw [fsWrite, hr, ok_bind]⟩

/-- `fs_read` returns. -/
theorem fsRead_returns {fs : Fs} (h : fs.su.nblockDat ≤ 4096) (inum : ℕ) (buf : Memory) (sz : ℤ)
    (off : ℕ) : ∃ r, fsRead fs inum buf sz off = .ok r := inodeRw_returns h inum buf sz off false

end Hobby386
