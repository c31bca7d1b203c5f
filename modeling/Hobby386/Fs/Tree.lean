import Hobby386.Fs.Reachable
import Mathlib.Algebra.BigOperators.Group.Finset.Piecewise

/-!
# The directory tree

Names in a directory are distinct, and every inode in use other than the first two is named by
exactly one entry of the whole tree, which its link count says.
-/

namespace Hobby386

open PointerForest Runs

variable {fs fs' : Fs} {c : Call} {ret : ℤ}

/-- How many entries of inode `d` name inode `i`, none if `d` is no directory. -/
def Fs.linksFrom (fs : Fs) (d i : ℕ) : ℕ :=
  if (fs.dinode d).type = tDir then ((fs.dirents d).map Dirent.inum).count i else 0

/-- How many entries of all directories name inode `i`. -/
def Fs.links (fs : Fs) (i : ℕ) : ℕ := ∑ d ∈ Finset.range 200, fs.linksFrom d i

/-- An inode in use other than the reserved ones. -/
def Fs.Created (fs : Fs) (i : ℕ) : Prop := (fs.dinode i).type ≠ 0 ∧ i ≠ nullInum ∧ i ≠ rootInum

instance (fs : Fs) (i : ℕ) : Decidable (fs.Created i) :=
  inferInstanceAs (Decidable ((fs.dinode i).type ≠ 0 ∧ i ≠ nullInum ∧ i ≠ rootInum))

/-- The invariant of the directory tree. -/
structure Tree (fs : Fs) : Prop where
  distinct : ∀ d < 200, (fs.dinode d).type = tDir → ((fs.dirents d).map fun de => cstr de.name).Nodup
  names : ∀ d < 200, (fs.dinode d).type = tDir → ∀ de ∈ fs.dirents d, 0 ∈ de.name ∧ slash ∉ cstr de.name
  links : ∀ i < 200, fs.links i = if fs.Created i then 1 else 0
  linkcnt : ∀ i < 200, fs.Created i → (fs.dinode i).linkcnt = 1

/-- What the tree depends on: the directories and their entries, the types and the link counts. -/
theorem Tree.congr (hinode : ∀ i < 200, (fs'.dinode i).type = (fs.dinode i).type ∧
      (fs'.dinode i).linkcnt = (fs.dinode i).linkcnt)
    (hdirents : ∀ i < 200, (fs.dinode i).type = tDir → fs'.dirents i = fs.dirents i) (h : Tree fs) :
    Tree fs' := by
  have hcreated {i : ℕ} (hi : i < 200) : fs'.Created i ↔ fs.Created i := by
    rw [Fs.Created, Fs.Created, (hinode i hi).1]
  have hlinks (i : ℕ) : fs'.links i = fs.links i := by
    apply Finset.sum_congr rfl
    intro d hd
    rw [Finset.mem_range] at hd
    rw [Fs.linksFrom, Fs.linksFrom, (hinode d hd).1]
    split
    · rename_i hdir
      rw [hdirents d hd hdir]
    · rfl
  constructor
  · intro d hd hdir
    rw [(hinode d hd).1] at hdir
    rw [hdirents d hd hdir]
    exact h.distinct d hd hdir
  · intro d hd hdir
    rw [(hinode d hd).1] at hdir
    rw [hdirents d hd hdir]
    exact h.names d hd hdir
  · intro i hi
    rw [hlinks, h.links i hi, if_congr (hcreated hi) rfl rfl]
  · intro i hi hcr
    rw [(hinode i hi).2]
    exact h.linkcnt i hi ((hcreated hi).mp hcr)

/-- A new name is not in the directory. -/
theorem MknodChecks.not_mem {path name parent : CString} {n : ℕ} (hsound : Sound fs)
    (h : MknodChecks fs path name parent n) :
    name.bytes ∉ (fs.dirents n).map fun de => cstr de.name := by
  intro hmem
  obtain ⟨de, hde, hname⟩ := List.mem_map.mp hmem
  have hnone := hsound.find?_eq_none h.lt h.dir (h.child_eq hsound)
  have hkeep : strcmp name.bytes de.name = 0 := by
    rw [strcmp_eq_zero_iff, hname, cstr_of_nulFree name.nulFree]
  exact absurd hkeep (by simpa using List.find?_eq_none.mp hnone de hde)

section Link

variable {type n x k m : ℕ} {name : CString} (hsound : Sound fs) (hn : n < 200)
  (hdir : (fs.dinode n).type = tDir) (hx : x < 200) (hfree : (fs.dinode x).type = 0)
  (h : LinkEffect fs type n name x k m fs')

include hsound hn hdir hx hfree h

/-- A complete entry is one more link to the new inode. -/
theorem LinkEffect.linksFrom_eq {d : ℕ} (hd : d < 200) (i : ℕ) :
    fs'.linksFrom d i = fs.linksFrom d i + if d = n then if k = 16 ∧ i = x then 1 else 0 else 0 := by
  have htype : (fs'.dinode n).type = tDir := by rw [h.parent]; exact hdir
  by_cases hdn : d = n
  · subst hdn
    rw [Fs.linksFrom, Fs.linksFrom, if_pos htype, if_pos hdir, if_pos rfl,
      h.dirents_parent hsound hn hdir hx, List.map_append, List.count_append]
    by_cases hk : k = 16
    · by_cases hix : i = x
      · simp [hk, hix, newDirent]
      · simp [hk, hix, newDirent, Ne.symm hix]
    · simp [hk]
  · rw [if_neg hdn, Nat.add_zero, Fs.linksFrom]
    by_cases hdx : d = x
    · have hold : fs.linksFrom d i = 0 := by
        rw [Fs.linksFrom, hdx, hfree, if_neg (by decide)]
      have hempty : fs'.dirents d = [] := by
        rw [Fs.dirents, hdx, h.new_size]
        rfl
      rw [hold, hempty]
      simp
    · rw [Fs.linksFrom, h.others d hd hdn hdx]
      split
      · rename_i hddir
        have hused : (fs.dinode d).type ≠ 0 := by rw [hddir]; decide
        have hsame : SameDir fs fs' d := ⟨by rw [h.others d hd hdn hdx],
          h.fileBlock_others d hd hdn hused, h.content_others d hd hdn hused⟩
        rw [hsame.dirents_eq]
      · rfl

/-- A new entry adds a link to its inode. -/
theorem LinkEffect.links_eq (i : ℕ) : fs'.links i = fs.links i + if k = 16 ∧ i = x then 1 else 0 := by
  have hsum : fs'.links i = ∑ d ∈ Finset.range 200,
      (fs.linksFrom d i + if d = n then if k = 16 ∧ i = x then 1 else 0 else 0) :=
    Finset.sum_congr rfl fun d hd => h.linksFrom_eq hsound hn hdir hx hfree (Finset.mem_range.mp hd) i
  rw [hsum, Finset.sum_add_distrib, Finset.sum_ite_eq', if_pos (Finset.mem_range.mpr hn), Fs.links]

/-- Linking a new inode of a proper type keeps the tree. -/
theorem Tree.link {path parent : CString} (htree : Tree fs) (htype : type ≠ 0)
    (hchecks : MknodChecks fs path name parent n) : Tree fs' := by
  obtain ⟨tail, hname⟩ := getname_eq_some hchecks.getname
  have hnul := name.nulFree
  have hstored : cstr (newDirent x name).name = name.bytes := cstr_strncpy hnul hname.name_lt
  have hcreated {i : ℕ} (hi : i < 200) : fs'.Created i ↔ fs.Created i ∨ k = 16 ∧ i = x := by
    by_cases hix : i = x
    · subst hix
      have hi0 : i ≠ nullInum := by rintro rfl; exact hsound.null hfree
      have hi1 : i ≠ rootInum := by
        rintro rfl
        rw [hsound.root] at hfree
        exact absurd hfree (by decide)
      rcases h.outcome with ⟨hk, -, hdi⟩ | ⟨hk, -, hdi⟩
      · simp [Fs.Created, hdi, hk, hi0, hi1, htype]
      · simp [Fs.Created, hdi, hk, hfree, Dinode.zero]
    · have hsame : (fs'.dinode i).type = (fs.dinode i).type := by
        by_cases hin : i = n
        · rw [hin, h.parent]
        · rw [h.others i hi hin hix]
      simp [Fs.Created, hsame, hix]
  constructor
  · intro d hd hddir
    rcases h.dir_cases hd hddir with rfl | ⟨-, hsize⟩ | ⟨-, hold, hsame⟩
    · rw [h.dirents_parent hsound hd hdir hx, List.map_append]
      split
      · rw [List.map_singleton, hstored, List.nodup_append]
        refine ⟨htree.distinct d hd hdir, List.nodup_singleton _, fun a ha b hb => ?_⟩
        rintro rfl
        rw [List.mem_singleton.mp hb] at ha
        exact hchecks.not_mem hsound ha
      · simpa using htree.distinct d hd hdir
    · rw [Fs.dirents, hsize]
      exact List.nodup_nil
    · rw [hsame.dirents_eq]
      exact htree.distinct d hd hold
  · intro d hd hddir de hde
    rcases h.dir_cases hd hddir with rfl | ⟨-, hsize⟩ | ⟨-, hold, hsame⟩
    · rw [h.dirents_parent hsound hd hdir hx, List.mem_append] at hde
      rcases hde with hde | hde
      · exact htree.names d hd hdir de hde
      · split at hde
        · rw [List.mem_singleton.mp hde, hstored]
          exact ⟨zero_mem_strncpy hname.name_lt, hname.name_free⟩
        · simp at hde
    · rw [Fs.dirents, hsize] at hde
      simp at hde
    · rw [hsame.dirents_eq] at hde
      exact htree.names d hd hold de hde
  · intro i hi
    rw [h.links_eq hsound hn hdir hx hfree, htree.links i hi, if_congr (hcreated hi) rfl rfl]
    by_cases hnew : k = 16 ∧ i = x
    · have hold : ¬fs.Created i := fun hc => hc.1 (by rw [hnew.2, hfree])
      rw [if_neg hold, if_pos hnew, if_pos (.inr hnew)]
    · simp [hnew]
  · intro i hi hcr
    by_cases hix : i = x
    · rcases h.outcome with ⟨-, -, hdi⟩ | ⟨-, -, hdi⟩
      · rw [hix, hdi]
      · rw [hix] at hcr
        exact absurd (by rw [hdi]; rfl) hcr.1
    · have hold := ((hcreated hi).mp hcr).resolve_right (fun hnew => hix hnew.2)
      by_cases hin : i = n
      · rw [hin, h.parent]
        exact htree.linkcnt n hn (hin ▸ hold)
      · rw [h.others i hi hin hix]
        exact htree.linkcnt i hi hold

end Link

/-- Proper calls keep the tree. -/
theorem Tree.call (htree : Tree fs) (hsound : Sound fs) (hproper : c.Proper fs)
    (heffect : CallEffect fs c ret fs') : Tree fs' := by
  cases heffect with
  | silent same failed =>
    rw [same]
    exact ⟨htree.distinct, htree.names, htree.links, htree.linkcnt⟩
  | linked hx hfree htype checks effect =>
    refine htree.link hsound checks.lt checks.dir hx hfree effect ?_ checks
    rintro rfl
    exact absurd hproper.1 (by decide)
  | written effect =>
    obtain ⟨hinum, hreg, -⟩ := hproper.onFiles
    rw [hsound.wellFormed.layout.ninodes] at hinum
    refine htree.congr (fun i hi => ⟨effect.type_eq hi, ?_⟩) fun i hi hdir => ?_
    · rename_i inum _ _ _ _
      by_cases hne : i = inum
      · rw [hne, effect.inode]
      · rw [effect.others i hi hne]
    · exact (effect.sameDir_of_dir hreg hinum hsound.wellFormed hi
        (by rw [effect.type_eq hi, hdir])).2.dirents_eq

/-- An empty file system is a tree. -/
theorem Formatted.tree (h : Formatted fs) : Tree fs := by
  have hcreated {i : ℕ} (hi : i < 200) : ¬fs.Created i := fun hc => hc.1 (h.free i hi hc.2.1 hc.2.2)
  have hlinks (i : ℕ) : fs.links i = 0 := by
    apply Finset.sum_eq_zero
    intro d hd
    rw [Fs.linksFrom]
    split
    · rename_i hdir
      rw [h.dirents_eq (Finset.mem_range.mp hd) hdir]
      rfl
    · rfl
  constructor
  · intro d hd hdir
    rw [h.dirents_eq hd hdir]
    exact List.nodup_nil
  · intro d hd hdir de hde
    rw [h.dirents_eq hd hdir] at hde
    exact absurd hde List.not_mem_nil
  · intro i hi
    rw [hlinks, if_neg (hcreated hi)]
  · intro i hi hc
    exact absurd hc (hcreated hi)

/-- Runs of proper calls from an empty file system keep the tree. -/
theorem Formatted.run {fs₀ : Fs} {t : List (Call × ℤ)} (h : Formatted fs₀) (hrun : ProperRun fs₀ t fs) :
    Sound fs ∧ Tree fs :=
  h.sound.run_keeps (fun _ _ hproper => hproper.onFiles)
    (fun _ _ _ _ hs hproper heffect htree => htree.call hs hproper heffect) h.tree hrun

/-- A reachable file system is a tree. -/
theorem Reachable.tree (h : Reachable fs) : Tree fs := by
  obtain ⟨fs₀, t, hfresh, hrun⟩ := h
  exact (hfresh.formatted.1.run hrun).2

/-- The inode of an entry has been created. -/
theorem Tree.created_of_mem (htree : Tree fs) (hgood : GoodDirs fs) {d : ℕ} (hd : d < 200)
    (hdir : (fs.dinode d).type = tDir) {de : Dirent} (hde : de ∈ fs.dirents d) : fs.Created de.inum := by
  have hlinked : 0 < fs.links de.inum := by
    have hfrom : 0 < fs.linksFrom d de.inum := by
      rw [Fs.linksFrom, if_pos hdir]
      exact List.count_pos_iff.mpr (List.mem_map_of_mem hde)
    exact hfrom.trans_le (Finset.single_le_sum (f := fun d => fs.linksFrom d de.inum)
      (fun _ _ => Nat.zero_le _) (Finset.mem_range.mpr hd))
  by_contra hnot
  rw [htree.links _ (hgood.inums d hd hdir de hde).2, if_neg hnot] at hlinked
  exact absurd hlinked (Nat.lt_irrefl 0)

/-- A child is in use. -/
theorem Tree.child_used (htree : Tree fs) (hgood : GoodDirs fs) {d : ℕ} (hd : d < 200)
    {name : List UInt8} (hne : fs.child d name ≠ nullInum) : (fs.dinode (fs.child d name)).type ≠ 0 := by
  rw [Fs.child] at hne ⊢
  split at hne
  · rename_i hdir
    rw [if_pos hdir, findName]
    rw [findName] at hne
    cases hfind : (fs.dirents d).find? fun de => strcmp name de.name = 0 with
    | none =>
      rw [hfind] at hne
      exact absurd rfl hne
    | some de => exact (htree.created_of_mem hgood hd hdir (List.mem_of_find?_eq_some hfind)).1
  · exact absurd rfl hne

/-- What a path leads to is in use. -/
theorem Tree.resolve_used (htree : Tree fs) (hgood : GoodDirs fs) {inum : ℕ} (hi : inum < 200)
    (hused : (fs.dinode inum).type ≠ 0) {names : List (List UInt8)}
    (hne : fs.resolve inum names ≠ nullInum) :
    (fs.dinode (fs.resolve inum names)).type ≠ 0 := by
  induction names generalizing inum with
  | nil => exact hused
  | cons name names ih =>
    rw [Fs.resolve] at hne ⊢
    split at hne
    · exact absurd rfl hne
    · rename_i hchild
      rw [if_neg hchild]
      exact ih (child_lt hgood hi name) (htree.child_used hgood hi hchild) hne

/-- The directory tree of every reachable file system: directories consist of whole entries that name
inodes in use; names are distinct, terminated and without slashes; and every created inode is named by
one entry and has link count 1, while the reserved ones are named by none. -/
theorem directory_tree (h : Reachable fs) :
    (∀ d < 200, (fs.dinode d).type = tDir → (fs.dinode d).size % direntSize = 0 ∧
      ((fs.dirents d).map fun de => cstr de.name).Nodup ∧
      ∀ de ∈ fs.dirents d, de.inum ≠ 0 ∧ fs.Allocated de.inum ∧ de.name.length = maxName ∧
        0 ∈ de.name ∧ slash ∉ cstr de.name) ∧
    (∀ i, fs.Allocated i → i ≠ nullInum → i ≠ rootInum → fs.links i = 1 ∧ (fs.dinode i).linkcnt = 1) ∧
    fs.links nullInum = 0 ∧ fs.links rootInum = 0 := by
  have hsound := h.sane.sound
  have htree := h.tree
  have hninodes := hsound.wellFormed.layout.ninodes
  refine ⟨fun d hd hdir => ⟨(hsound.dirs.dirs d hd hdir).size_mod, htree.distinct d hd hdir,
    fun de hde => ?_⟩, fun i hi h0 h1 => ?_, ?_, ?_⟩
  · obtain ⟨hne, hlt⟩ := hsound.dirs.inums d hd hdir de hde
    have hcreated := htree.created_of_mem hsound.dirs hd hdir hde
    obtain ⟨hnul, hfree⟩ := htree.names d hd hdir de hde
    obtain ⟨e, -, rfl⟩ := List.mem_map.mp hde
    exact ⟨hne, ⟨by rw [hninodes]; exact hlt, hcreated.1⟩, by simp [Fs.dirent, Dirent.ofBytes],
      hnul, hfree⟩
  · have hlt : i < 200 := hninodes ▸ hi.1
    have hcreated : fs.Created i := ⟨hi.2, h0, h1⟩
    exact ⟨by rw [htree.links i hlt, if_pos hcreated], htree.linkcnt i hlt hcreated⟩
  · rw [htree.links nullInum (by decide), if_neg (fun hc => hc.2.1 rfl)]
  · rw [htree.links rootInum (by decide), if_neg (fun hc => hc.2.2 rfl)]

/-- The directory tree after a first call of `fs_mknod`. -/
theorem directory_tree_mknod : ∃ fs, Reachable fs ∧
    (∀ d < 200, (fs.dinode d).type = tDir → (fs.dinode d).size % direntSize = 0 ∧
      ((fs.dirents d).map fun de => cstr de.name).Nodup ∧
      ∀ de ∈ fs.dirents d, de.inum ≠ 0 ∧ fs.Allocated de.inum ∧ de.name.length = maxName ∧
        0 ∈ de.name ∧ slash ∉ cstr de.name) ∧
    (∀ i, fs.Allocated i → i ≠ nullInum → i ≠ rootInum → fs.links i = 1 ∧ (fs.dinode i).linkcnt = 1) ∧
    fs.links nullInum = 0 ∧ fs.links rootInum = 0 := by
  obtain ⟨-, fs, -, -, hreach, -⟩ := exists_reachable_mknod
  exact ⟨fs, hreach, directory_tree hreach⟩

end Hobby386
