import Hobby386.Fs.Mknod

/-!
# Freeing an inode

`free_inode` hands every block of the pointer tree of an inode to `bitmap_free`, which clears the bit
of the block number itself and not the one of its place in the data area. For data blocks the assertion
is the wrong way round on top of it. The bit of the first block of a tree is never cleared, so only
inodes without blocks are freed as they should be.
-/

namespace Hobby386

open PointerForest

variable {fs fs' fs₁ : Fs} {m i : ℕ}

/-- What freeing inode `i` is meant to do: the inode and its blocks are given back, and nothing else
changes. -/
structure FreesInode (fs : Fs) (i : ℕ) (fs' : Fs) : Prop where
  type : (fs'.dinode i).type = 0
  freed : ∀ n, 0 < fs.refs i n → marked fs.su fs'.disk n = false
  kept : ∀ n, fs.su.sdata ≤ n → fs.refs i n = 0 → marked fs.su fs'.disk n = marked fs.su fs.disk n
  others : ∀ j < 200, j ≠ i → fs'.dinode j = fs.dinode j
  content : ∀ j, fs.Allocated j → j ≠ i → ∀ x, fs'.content j x = fs.content j x

/-- The effect of freeing blocks from `m` on: only the bitmap block is written, and the bits below
`m` stay. -/
structure FreedFrom (m : ℕ) (fs fs' : Fs) : Prop where
  init : fs'.init = fs.init
  su_eq : fs'.su = fs.su
  disk : ∀ n, n ≠ fs.su.sbitmap → fs'.disk n = fs.disk n
  low : ∀ k < m, (fs'.disk fs.su.sbitmap).bit k = (fs.disk fs.su.sbitmap).bit k

/-- Nothing has been freed. -/
theorem FreedFrom.refl (m : ℕ) (fs : Fs) : FreedFrom m fs fs :=
  ⟨rfl, rfl, fun _ _ => rfl, fun _ _ => rfl⟩

/-- Blocks freed in two steps. -/
theorem FreedFrom.trans (h : FreedFrom m fs fs₁) (h' : FreedFrom m fs₁ fs') : FreedFrom m fs fs' where
  init := h'.init.trans h.init
  su_eq := h'.su_eq.trans h.su_eq
  disk := fun n hn => (h'.disk n (by rwa [h.su_eq])).trans (h.disk n hn)
  low := fun k hk => by
    have hlow := h'.low k hk
    rw [h.su_eq] at hlow
    exact hlow.trans (h.low k hk)

/-- One block is freed. -/
theorem FreedFrom.of_bitmapFree {n : ℕ} {r : Bool} (hn : m ≤ n) (h : bitmapFree fs n = .ok (r, fs')) :
    FreedFrom m fs fs' := by
  rcases bitmapFree_cases h with ⟨-, rfl, -⟩ | ⟨-, -, -, b, rfl, hb⟩
  · exact .refl m _
  · refine ⟨rfl, rfl, fun k hk => Fs.diskWrite_disk_of_ne hk, fun k hk => ?_⟩
    rw [Fs.diskWrite_disk_self, hb, decide_eq_true (by omega), Bool.and_true]

/-- All blocks of a forest are from `m` on, and none of them is the bitmap block. -/
def Above (m : ℕ) (fs : Fs) (F : Forest) : Prop :=
  ∀ n, 0 < refs Block.ptrs fs.disk F n → m ≤ n ∧ n ≠ fs.su.sbitmap

/-- The pointers stay above the bound while blocks are freed. -/
theorem Above.freedFrom {F : Forest} (h : Above m fs F) (hfreed : FreedFrom m fs fs₁) :
    Above m fs₁ F := by
  intro n hn
  rw [refs_frame fun b hb => hfreed.disk b (h b hb).2] at hn
  rw [hfreed.su_eq]
  exact h n hn

/-- A loop over pointers frees blocks if each of its steps does. -/
theorem freePtrs_freedFrom {free : (i p : ℕ) → Fs → Except Fault Fs} {level : ℕ → ℕ}
    (hfree : ∀ i p fs fs', p ≠ 0 → Above m fs [(level i, p)] → free i p fs = .ok fs' →
      FreedFrom m fs fs')
    {i : ℕ} {ps : List ℕ} (habove : Above m fs (forestFrom level i ps))
    (h : freePtrs free i ps fs = .ok fs') : FreedFrom m fs fs' := by
  induction ps generalizing i fs with
  | nil =>
    cases h
    exact .refl m _
  | cons p ps ih =>
    have hhead : Above m fs [(level i, p)] := fun n hn => habove n (by
      rw [forestFrom, refs_split]
      exact Nat.add_pos_left hn _)
    have htail : Above m fs (forestFrom level (i + 1) ps) := fun n hn => habove n (by
      rw [forestFrom, refs_split]
      exact Nat.add_pos_right _ hn)
    rw [freePtrs] at h
    split at h
    · exact ih htail h
    · rename_i hp
      rw [bind_eq_ok] at h
      obtain ⟨fs₁, hcall, h⟩ := h
      have hfirst := hfree i p fs fs₁ hp hhead hcall
      exact hfirst.trans (ih (htail.freedFrom hfirst) h)

/-- Freeing a tree clears no bit below its blocks. -/
theorem freeIndirect_freedFrom {l p : ℕ} (hp : p ≠ 0) (habove : Above m fs [(l, p)])
    (h : freeIndirect l p fs = .ok fs') : FreedFrom m fs fs' := by
  induction l generalizing p fs fs' with
  | zero =>
    rw [freeIndirect, bind_eq_ok] at h
    obtain ⟨⟨r, fs₁⟩, hcall, h⟩ := h
    split at h
    · cases h
    · cases h
      exact .of_bitmapFree (habove p (refs_root hp)).1 hcall
  | succ l ih =>
    rw [freeIndirect, bind_eq_ok] at h
    obtain ⟨⟨r, fs₁⟩, hcall, h⟩ := h
    have hfirst := FreedFrom.of_bitmapFree (habove p (refs_root hp)).1 hcall
    split at h
    · have hkids : Above m fs (row l (fs.disk p).ptrs) :=
        fun n hn => habove n (hn.trans_le (refs_kids_le hp))
      have hrow : Above m fs₁ (forestFrom (fun _ => l) 0 (fs.disk p).ptrs) := by
        rw [forestFrom_const]
        exact hkids.freedFrom hfirst
      exact hfirst.trans (freePtrs_freedFrom (fun _ p fs fs' => ih) hrow h)
    · cases h

/-- A pointer of an inode is a reference to its block. -/
theorem refs_of_mem_forest {d : Disk} {F : Forest} {l p : ℕ} (h : (l, p) ∈ F) (hp : p ≠ 0) :
    0 < refs Block.ptrs d F p := by
  induction F with
  | nil => exact absurd h List.not_mem_nil
  | cons t F ih =>
    rw [refs_split]
    rcases List.mem_cons.mp h with rfl | h
    · exact Nat.add_pos_left (refs_root hp) _
    · exact Nat.add_pos_right _ (ih h)

/-- An inode in use that is not bare owns a block. -/
theorem exists_refs_of_not_bare (hused : (fs.dinode i).type ≠ 0) (hbare : ¬(fs.dinode i).Bare) :
    ∃ n, 0 < fs.refs i n := by
  have hptr : ∃ p ∈ (fs.dinode i).ptrs, p ≠ 0 := by
    by_contra hnone
    push Not at hnone
    apply hbare
    rw [Dinode.Bare, ← (fs.fits_dinode i).length]
    exact List.eq_replicate_of_mem hnone
  obtain ⟨p, hmem, hp⟩ := hptr
  obtain ⟨l, hl⟩ := mem_forestFrom getIlevel 0 hmem
  exact ⟨p, by rw [Fs.refs, if_neg hused]; exact refs_of_mem_forest hl hp⟩

/-- A call that returns has freed the pointers and then stored the inode. -/
theorem freeInode_steps (hwf : WellFormed fs) (hi : i < 200) {r : Bool}
    (h : freeInode fs i = .ok (r, fs')) :
    ∃ fs₁, freePtrs (fun i => freeIndirect (getIlevel i)) 0 (fs.dinode i).ptrs fs = .ok fs₁ ∧
      fs' = (writeInode fs₁ i { fs.dinode i with type := 0 }).2 := by
  simp only [freeInode, hwf.init, Bool.not_true, Bool.false_eq_true, if_false,
    readInode_eq hwf.init hwf.layout hi, bind_eq_ok] at h
  obtain ⟨fs₁, hfree, h⟩ := h
  cases h
  exact ⟨fs₁, hfree, rfl⟩

/-- Freeing an inode without blocks does what it is meant to do. -/
theorem freesInode_of_bare (hwf : WellFormed fs) (hi : i < 200) (hbare : (fs.dinode i).Bare) :
    FreesInode fs i (fs.setDinode i { fs.dinode i with type := 0 }) := by
  have hfit : ({ fs.dinode i with type := 0 } : Dinode).Fits := { fs.fits_dinode i with type := by simp }
  have hrefs (n : ℕ) : fs.refs i n = 0 := Fs.refs_of_bare hbare n
  constructor
  case type => rw [Fs.dinode_setDinode hfit]
  case freed =>
    intro n hn
    rw [hrefs n] at hn
    exact absurd hn (Nat.lt_irrefl 0)
  case kept => exact fun n _ _ => marked_setDinode hwf hi n
  case others => exact fun j _ hne => Fs.dinode_setDinode_of_ne hne
  case content =>
    intro j hj hne x
    exact content_setDinode hwf hi (hwf.layout.ninodes ▸ hj.1) hne hj.2 x

/-- An inode with blocks is not freed as it should be: the bit of its first block stays. -/
theorem bare_of_freesInode (hwf : WellFormed fs) (halloc : fs.Allocated i) {r : Bool}
    (h : freeInode fs i = .ok (r, fs')) (hfrees : FreesInode fs i fs') : (fs.dinode i).Bare := by
  have hi : i < 200 := hwf.layout.ninodes ▸ halloc.1
  by_contra hbare
  classical
  have howns := exists_refs_of_not_bare halloc.2 hbare
  obtain ⟨first, hfirst⟩ : ∃ first, first = Nat.find howns := ⟨_, rfl⟩
  have howned : 0 < fs.refs i first := hfirst ▸ Nat.find_spec howns
  have hdata (n : ℕ) (hn : 0 < fs.refs i n) : fs.su.InData n ∧ marked fs.su fs.disk n = true :=
    (hwf.accounts n).2 (hn.trans_le (Fs.refs_le_owners hi n))
  have hblock := hwf.layout.inodeBlock_lt hi
  obtain ⟨fs₁, hptrs, rfl⟩ := freeInode_steps hwf hi h
  have habove : Above first fs (fs.dinode i).forest := by
    intro n hn
    have hrefs : 0 < fs.refs i n := by rwa [Fs.refs, if_neg halloc.2]
    have hlow := (hdata n hrefs).1.1
    exact ⟨hfirst ▸ Nat.find_min' howns hrefs, by omega⟩
  have hfreed : FreedFrom first fs fs₁ :=
    freePtrs_freedFrom (fun _ _ _ _ hp => freeIndirect_freedFrom hp) habove hptrs
  have hfit : ({ fs.dinode i with type := 0 } : Dinode).Fits := { fs.fits_dinode i with type := by simp }
  have hbit := hfrees.freed first howned
  rw [writeInode_eq (by rw [hfreed.init, hwf.init]) (by rw [hfreed.su_eq]; exact hwf.layout) hi
    hfit] at hbit
  have hlow := (hdata first howned).1.1
  rw [marked, Fs.setDinode_disk_of_ne (by rw [hfreed.su_eq]; omega), hfreed.low _ (by omega), ← marked,
    (hdata first howned).2] at hbit
  exact absurd hbit (by decide)

/-- When `free_inode` gives back what the inode owned: exactly if it owned nothing. -/
theorem freeInode_frees_iff (hwf : WellFormed fs) (halloc : fs.Allocated i) :
    (∃ fs', freeInode fs i = .ok (true, fs') ∧ FreesInode fs i fs') ↔ (fs.dinode i).Bare := by
  have hi : i < 200 := hwf.layout.ninodes ▸ halloc.1
  constructor
  · rintro ⟨fs', h, hfrees⟩
    exact bare_of_freesInode hwf halloc h hfrees
  · intro hbare
    exact ⟨_, freeInode_of_null hwf.init hwf.layout hi hbare, freesInode_of_bare hwf hi hbare⟩

/-- The one block of a file is not given back. -/
theorem freeInode_holeThenData : WellFormed holeThenData ∧ holeThenData.Allocated 2 ∧
    ¬∃ fs', freeInode holeThenData 2 = .ok (true, fs') ∧ FreesInode holeThenData 2 fs' := by
  refine ⟨wellFormed_holeThenData, allocated_holeThenData, ?_⟩
  rintro ⟨fs', h, hfrees⟩
  have hbare := bare_of_freesInode wellFormed_holeThenData allocated_holeThenData h hfrees
  rw [dinode_holeThenData, Dinode.Bare] at hbare
  exact absurd hbare (by decide)

/-- The characterisation at this file. -/
theorem freeInode_frees_iff_holeThenData :
    (∃ fs', freeInode holeThenData 2 = .ok (true, fs') ∧ FreesInode holeThenData 2 fs') ↔
      (holeThenData.dinode 2).Bare :=
  freeInode_frees_iff wellFormed_holeThenData allocated_holeThenData

end Hobby386
