import Hobby386.Fs.WriteFile

/-!
# When a write is complete

An observer of a write runs it with an allocator that stops the call as soon as there is no free block
left. A call that the observer does not see stopped transfers every byte of the request in front of
the last addressable block.
-/

namespace Hobby386

open PointerForest

/-- `bitmap_alloc`, stopped when it would return 0. -/
def stoppingAlloc : Allocator := fun fs => do
  let r ← bitmapAlloc fs
  if r.1 = 0 then .error .stopped else .ok r

/-- The observer sees the write stopped exactly when it returns a failure, and has no influence
otherwise. -/
def Observes (rw rw' : RwFn) : Prop :=
  ∀ (p : ℕ) (sa : ShareArg) (fs : Fs) (r : RwOut), sa.w = true → rw p sa fs = .ok r → r.sa.w = true ∧
    (r.ret = 0 ∧ rw' p sa fs = .ok r ∨ r.ret ≠ 0 ∧ rw' p sa fs = .error .stopped)

/-- A loop with the stopping allocator stops exactly where the other one runs out of blocks. -/
theorem observes_loop {rw rw' : ℕ → RwFn} (hrw : ∀ i, Observes (rw i) (rw' i)) {i : ℕ} {ps : List ℕ}
    {sa : ShareArg} {fs : Fs} {t : RwLoop} (hw : sa.w = true) (h : rwPtrs rw i ps sa fs = .ok t) :
    t.sa.w = true ∧
      (t.ret = 0 ∧ rwPtrs rw' i ps sa fs = .ok t ∨ t.ret ≠ 0 ∧
        rwPtrs rw' i ps sa fs = .error .stopped) := by
  induction ps generalizing i sa fs t with
  | nil =>
    cases h
    exact ⟨hw, .inl ⟨rfl, rfl⟩⟩
  | cons p ps ih =>
    rw [rwPtrs, bind_eq_ok] at h
    obtain ⟨r, hcall, h⟩ := h
    obtain ⟨hw', ⟨hret, hsame⟩ | ⟨hret, hstop⟩⟩ := hrw i p sa fs r hw hcall
    · rw [if_pos hret, bind_eq_ok] at h
      obtain ⟨t', hloop, h⟩ := h
      cases h
      rw [rwPtrs, hsame, ok_bind, if_pos hret]
      obtain ⟨hw'', ⟨hret', hsame'⟩ | ⟨hret', hstop'⟩⟩ := ih hw' hloop
      · exact ⟨hw'', .inl ⟨hret', by rw [hsame', ok_bind]⟩⟩
      · exact ⟨hw'', .inr ⟨hret', by rw [hstop', error_bind]⟩⟩
    · rw [if_neg hret] at h
      cases h
      exact ⟨hw', .inr ⟨hret, by rw [rwPtrs, hstop, error_bind]⟩⟩

/-- The stopping allocator stops exactly when there is no free block. -/
theorem observes_rwAlloc {l p : ℕ} {fs : Fs} {a : ℕ × Fs} (h : rwAlloc bitmapAlloc l p fs = .ok a) :
    a.1 ≠ 0 ∧ rwAlloc stoppingAlloc l p fs = .ok a ∨
      a.1 = 0 ∧ rwAlloc stoppingAlloc l p fs = .error .stopped := by
  rw [rwAlloc] at h ⊢
  split at h
  · rename_i hp
    rw [bind_eq_ok] at h
    obtain ⟨r, halloc, h⟩ := h
    rw [if_pos hp, stoppingAlloc, halloc, ok_bind]
    split at h
    · rename_i hzero
      cases h
      exact .inr ⟨rfl, by rw [if_pos hzero, error_bind]⟩
    · rename_i hzero
      rw [if_neg hzero, ok_bind, if_neg hzero]
      refine .inl ⟨?_, h⟩
      split at h <;> cases h <;> exact hzero
  · rename_i hp
    cases h
    exact .inl ⟨hp, by rw [if_neg hp]⟩

/-- The body of the traversal stops exactly where the other one runs out of blocks. -/
theorem observes_rwBody {below below' : RwFn} (hbelow : Observes below below') (l : ℕ) :
    Observes (rwBody bitmapAlloc below l) (rwBody stoppingAlloc below' l) := by
  intro p sa fs r hw h
  rw [rwBody] at h ⊢
  split at h
  · rename_i hskip
    cases h
    exact ⟨hw, .inl ⟨rfl, if_pos hskip⟩⟩
  · rename_i hvisit
    rw [bind_eq_ok] at h
    obtain ⟨a, halloc, h⟩ := h
    rw [if_neg hvisit, if_pos hw]
    rcases observes_rwAlloc halloc with ⟨hne, hsame⟩ | ⟨hzero, hstop⟩
    · rw [if_neg hne] at h
      rw [hsame, ok_bind, if_neg hne]
      split at h
      · rename_i hl
        cases h
        simp [rwData, hw, hl]
      · rename_i hl
        rw [rwIndirect, bind_eq_ok] at h
        obtain ⟨t, hloop, h⟩ := h
        rw [if_neg hl, rwIndirect]
        obtain ⟨hw', ⟨hret, hsame'⟩ | ⟨hret, hstop'⟩⟩ := observes_loop (fun _ => hbelow) hw hloop
        · rw [if_pos hret] at h
          cases h
          exact ⟨hw', .inl ⟨rfl, by rw [hsame', ok_bind, if_pos hret]⟩⟩
        · rw [if_neg hret, if_pos hw'] at h
          cases h
          exact ⟨hw', .inr ⟨Int.neg_ne_zero.mpr Int.one_ne_zero, by rw [hstop', error_bind]⟩⟩
    · rw [if_pos hzero] at h
      cases h
      exact ⟨hw, .inr ⟨Int.neg_ne_zero.mpr Int.one_ne_zero, by rw [hstop, error_bind]⟩⟩

/-- The traversal stops exactly where the other one runs out of blocks. -/
theorem observes_recursiveRw (l : ℕ) :
    Observes (recursiveRw bitmapAlloc l) (recursiveRw stoppingAlloc l) := by
  induction l with
  | zero =>
    apply observes_rwBody
    intro p sa fs r hw h
    cases h
    exact ⟨hw, .inl ⟨rfl, rfl⟩⟩
  | succ l ih => exact observes_rwBody ih (l + 1)

/-- A write whose allocations all succeed transfers every byte in front of the last addressable block. -/
theorem fsWrite_complete {fs : Fs} {inum off : ℕ} (hwf : WellFormed fs) (halloc : fs.Allocated inum)
    {buf : Memory} {sz : ℤ} (hsz : bits32 sz ≤ 0xefffffff) (hoff : off < 4294967296) {r : ℤ × Fs}
    (h : fsWrite fs inum buf sz off = .ok r)
    (hstop : inodeRw stoppingAlloc fs inum buf sz off true ≠ .error .stopped) :
    r.1 = ((writeRequest buf (bits32 sz) off).done maxBlocks : ℕ) := by
  have hinum : inum < 200 := hwf.layout.ninodes ▸ halloc.1
  obtain ⟨t, hloop, n, hn, -, hfinished, -⟩ := fsWrite_result hwf halloc hsz hoff h
  rw [hn]
  refine congrArg Nat.cast (hfinished ?_)
  rcases (observes_loop (fun i => observes_recursiveRw (getIlevel i)) rfl hloop).2 with
    ⟨hret, -⟩ | ⟨-, hstopped⟩
  · exact hret
  · refine absurd ?_ hstop
    simp only [inodeRw, hwf.init, Bool.not_true, Bool.false_eq_true, if_false,
      if_neg (Nat.not_lt.mpr hsz), readInode_eq hwf.init hwf.layout hinum, Bool.true_eq_false, false_and]
    exact congrArg (· >>= _) hstopped

end Hobby386
