import Hobby386.Fs.Reachable

/-!
# Every creation gets an inode of its own

Inodes are free when their type is 0, so an inode that `fs_mknod` has returned is taken again by the
next call unless its type is another one. With types other than 0 the results of a run are distinct,
whatever the paths are and whatever is written to the new inodes.
-/

namespace Hobby386

open PointerForest Runs

variable {fs fs' fs₀ : Fs} {c : Call} {ret : ℤ} {t : List (Call × ℤ)}

/-- An inode that an earlier `fs_mknod` has returned. -/
def Returned (t : List (Call × ℤ)) (inum : ℕ) : Prop :=
  ∃ path type, (Call.mknod path type, (inum : ℤ)) ∈ t

/-- The calls of a program that creates inodes, of types that `alloc_inode` accepts, and writes to
them. -/
def CreationRule (t : List (Call × ℤ)) (_ : Fs) : Call → Prop
  | .mknod _ type => type ≤ tDev
  | .write inum _ _ off => Returned t inum ∧ off < 4294967296
  | _ => False

/-- The results of the successful creations of a run, in their order. -/
def created (t : List (Call × ℤ)) : List ℤ :=
  t.filterMap fun
    | (.mknod _ _, r) => if r = nullInum then none else some r
    | _ => none

/-- No inode of the run has been created with type 0. -/
def NonzeroTypes (t : List (Call × ℤ)) : Prop := ∀ path type r, (Call.mknod path type, r) ∈ t → type ≠ 0

/-- What the creations of a run leave in the inode table. -/
structure Creations (t : List (Call × ℤ)) (fs : Fs) : Prop where
  wellFormed : WellFormed fs
  reserved : (fs.dinode nullInum).type ≠ 0 ∧ (fs.dinode rootInum).type ≠ 0
  used : ∀ r ∈ created t, ∃ i : ℕ, r = i ∧ i < 200 ∧ i ≠ nullInum ∧ i ≠ rootInum ∧ (fs.dinode i).type ≠ 0
  nodup : (created t).Nodup

/-- A returned inode is in use. -/
theorem Creations.allocated {inum : ℕ} (h : Creations t fs) (hret : Returned t inum) :
    fs.Allocated inum := by
  obtain ⟨path, type, hmem⟩ := hret
  have hninodes := h.wellFormed.layout.ninodes
  by_cases hnull : inum = nullInum
  · rw [hnull]
    exact ⟨by rw [hninodes]; decide, h.reserved.1⟩
  · have hcreated : (inum : ℤ) ∈ created t :=
      List.mem_filterMap.mpr ⟨_, hmem, if_neg (by simpa using hnull)⟩
    obtain ⟨i, hi, hlt, -, -, hused⟩ := h.used _ hcreated
    rw [Int.ofNat_inj.mp hi]
    exact ⟨by rw [hninodes]; exact hlt, hused⟩

/-- A call that creates nothing keeps the earlier creations. -/
theorem Creations.keep (h : Creations t fs) (happl : c.Applicable fs) (heffect : CallEffect fs c ret fs')
    (hnone : created (t ++ [(c, ret)]) = created t) : Creations (t ++ [(c, ret)]) fs' where
  wellFormed := heffect.wellFormed h.wellFormed happl
  reserved := by
    rw [heffect.type_kept (by decide) h.reserved.1, heffect.type_kept (by decide) h.reserved.2]
    exact h.reserved
  used := by
    rw [hnone]
    intro r hr
    obtain ⟨i, hri, hi, h0, h1, hused⟩ := h.used r hr
    exact ⟨i, hri, hi, h0, h1, by rw [heffect.type_kept hi hused]; exact hused⟩
  nodup := by rw [hnone]; exact h.nodup

/-- A created inode was free before, so it is not among the earlier ones. -/
theorem Creations.create {path : Option CString} {type x : ℕ} (h : Creations t fs)
    (heffect : CallEffect fs (.mknod path type) x fs') (hx : x < 200) (hfree : (fs.dinode x).type = 0)
    (hused : (fs'.dinode x).type ≠ 0) : Creations (t ++ [(.mknod path type, (x : ℤ))]) fs' := by
  have h0 : x ≠ nullInum := by rintro rfl; exact h.reserved.1 hfree
  have h1 : x ≠ rootInum := by rintro rfl; exact h.reserved.2 hfree
  have hcreated : created (t ++ [(.mknod path type, (x : ℤ))]) = created t ++ [(x : ℤ)] := by
    have hx0 : (x : ℤ) ≠ (nullInum : ℕ) := by simpa using h0
    rw [created, List.filterMap_append]
    exact congrArg (created t ++ ·) (by rw [List.filterMap_cons]; simp only [if_neg hx0]; rfl)
  constructor
  · exact heffect.wellFormed h.wellFormed trivial
  · rw [heffect.type_kept (by decide) h.reserved.1, heffect.type_kept (by decide) h.reserved.2]
    exact h.reserved
  · intro r hr
    rw [hcreated, List.mem_append] at hr
    rcases hr with hr | hr
    · obtain ⟨i, hri, hi, hi0, hi1, hiused⟩ := h.used r hr
      exact ⟨i, hri, hi, hi0, hi1, by rw [heffect.type_kept hi hiused]; exact hiused⟩
    · exact ⟨x, List.mem_singleton.mp hr, hx, h0, h1, hused⟩
  · rw [hcreated, List.nodup_append]
    refine ⟨h.nodup, List.nodup_singleton _, fun a ha b hb => ?_⟩
    rintro rfl
    rw [List.mem_singleton.mp hb] at ha
    obtain ⟨i, hxi, -, -, -, hiused⟩ := h.used _ ha
    exact hiused (by rw [← Int.ofNat_inj.mp hxi, hfree])

/-- One call of the run. -/
theorem Creations.call (h : Creations t fs) (hrule : CreationRule t fs c)
    (htypes : NonzeroTypes (t ++ [(c, ret)])) (hexec : c.exec fs = .ok (ret, fs')) :
    Creations (t ++ [(c, ret)]) fs' := by
  have happl : c.Applicable fs := by
    cases c with
    | write inum buf sz off => exact ⟨h.allocated hrule.1, hrule.2⟩
    | mknod path type => trivial
    | read inum buf sz off => trivial
    | lookup path => trivial
  have heffect := Call.exec_effect h.wellFormed h.reserved.1 happl hexec
  have hnothing (hret : ∀ path type, c = .mknod path type → ret = (nullInum : ℕ)) :
      created (t ++ [(c, ret)]) = created t := by
    rw [created, List.filterMap_append]
    refine (congrArg (created t ++ ·) ?_).trans (List.append_nil _)
    cases c with
    | mknod path type => rw [List.filterMap_cons]; simp only [if_pos (hret path type rfl)]; rfl
    | write inum buf sz off => rfl
    | read inum buf sz off => rfl
    | lookup path => rfl
  cases heffect with
  | silent same failed => exact h.keep happl (.silent same failed) (hnothing failed)
  | @linked path name parent type n x k m fs' hx hfree htype checks effect =>
    rcases effect.outcome with ⟨-, rfl, hdi⟩ | ⟨-, rfl, -⟩
    · refine h.create (.linked hx hfree htype checks effect) hx hfree ?_
      rw [hdi]
      exact htypes _ _ _ (List.mem_append_right _ (List.mem_singleton.mpr rfl))
    · exact h.keep happl (.linked hx hfree htype checks effect) (hnothing fun _ _ _ => rfl)
  | written effect => exact h.keep happl (.written effect) (hnothing fun _ _ hc => nomatch hc)

/-- Nothing has been created in an empty file system. -/
theorem Formatted.creations (h : Formatted fs) : Creations [] fs where
  wellFormed := h.sound.wellFormed
  reserved := ⟨h.sound.null, by rw [h.sound.root]; decide⟩
  used := fun _ hr => absurd hr List.not_mem_nil
  nodup := List.nodup_nil

/-- In every run without type 0, each result other than 0 differs from the reserved inodes and from every
other result. -/
theorem created_distinct (hformatted : Formatted fs₀) (hrun : Run Call.exec CreationRule fs₀ t fs)
    (htypes : NonzeroTypes t) :
    (created t).Nodup ∧ ∀ r ∈ created t, r ≠ (nullInum : ℕ) ∧ r ≠ (rootInum : ℕ) := by
  have hcreations : NonzeroTypes t → Creations t fs := by
    refine hrun.invariant (I := fun t fs => NonzeroTypes t → Creations t fs)
      (fun _ => hformatted.creations) ?_
    intro t fs c r fs' ih hrule hexec htypes
    exact (ih fun path type r hmem => htypes path type r (List.mem_append_left _ hmem)).call hrule
      htypes hexec
  have h := hcreations htypes
  refine ⟨h.nodup, fun r hr => ?_⟩
  obtain ⟨i, rfl, -, h0, h1, -⟩ := h.used r hr
  exact ⟨fun h => h0 (Int.ofNat_inj.mp h), fun h => h1 (Int.ofNat_inj.mp h)⟩

/-- The distinct results of a run that creates two files. -/
theorem created_distinct_pathA : ∃ fs₀ fs, Formatted fs₀ ∧
    Run Call.exec CreationRule fs₀ [(.mknod (some pathA) tReg, 2), (.mknod (some pathB) tReg, 3)] fs ∧
    (created [(.mknod (some pathA) tReg, 2), (.mknod (some pathB) tReg, 3)]).Nodup ∧
    ∀ r ∈ created [(.mknod (some pathA) tReg, 2), (.mknod (some pathB) tReg, 3)],
      r ≠ (nullInum : ℕ) ∧ r ≠ (rootInum : ℕ) := by
  obtain ⟨fs₀, hfresh, hdat⟩ := exists_freshlyMounted
  obtain ⟨fs₁, fs₂, hfirst, hsecond⟩ :=
    hfresh.formatted.1.creates_twice (by omega) (by omega) (show tReg ≤ 3 by decide)
      (show tReg ≤ 3 by decide)
  have hrun₁ : Run Call.exec CreationRule fs₀ [(.mknod (some pathA) tReg, 2)] fs₁ :=
    Run.start.call (show tReg ≤ tDev by decide) (exec_mknod hfirst)
  have hrun₂ : Run Call.exec CreationRule fs₀ [(.mknod (some pathA) tReg, 2),
      (.mknod (some pathB) tReg, 3)] fs₂ :=
    hrun₁.call (show tReg ≤ tDev by decide) (exec_mknod hsecond)
  refine ⟨fs₀, fs₂, hfresh.formatted.1, hrun₂,
    created_distinct hfresh.formatted.1 hrun₂ fun path type r hmem => ?_⟩
  simp only [List.mem_cons, Prod.mk.injEq, Call.mknod.injEq, List.not_mem_nil, or_false] at hmem
  rcases hmem with ⟨⟨-, rfl⟩, -⟩ | ⟨⟨-, rfl⟩, -⟩ <;> decide

/-- Two names can end up with the same inode. -/
theorem created_same : ∃ fs₀ fs, Formatted fs₀ ∧
    Run Call.exec CreationRule fs₀ [(.mknod (some pathA) 0, 2), (.mknod (some pathB) 0, 2)] fs ∧
    ¬((created [(.mknod (some pathA) 0, 2), (.mknod (some pathB) 0, 2)]).Nodup ∧
      ∀ r ∈ created [(.mknod (some pathA) 0, 2), (.mknod (some pathB) 0, 2)],
        r ≠ (nullInum : ℕ) ∧ r ≠ (rootInum : ℕ)) := by
  obtain ⟨fs₀, hfresh, hdat⟩ := exists_freshlyMounted
  obtain ⟨fs₁, fs₂, hfirst, hsecond⟩ :=
    hfresh.formatted.1.creates_twice (by omega) (by omega) (Nat.zero_le 3) (Nat.zero_le 3)
  have hrun₁ : Run Call.exec CreationRule fs₀ [(.mknod (some pathA) 0, 2)] fs₁ :=
    Run.start.call (show 0 ≤ tDev by decide) (exec_mknod hfirst)
  have hrun₂ : Run Call.exec CreationRule fs₀ [(.mknod (some pathA) 0, 2),
      (.mknod (some pathB) 0, 2)] fs₂ :=
    hrun₁.call (show 0 ≤ tDev by decide) (exec_mknod hsecond)
  exact ⟨fs₀, fs₂, hfresh.formatted.1, hrun₂, fun hdistinct => absurd hdistinct.1 (by decide)⟩

end Hobby386
