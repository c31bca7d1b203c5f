import Hobby386.Fs.Tree

/-!
# Creating and finding the same path

`fs_mknod` cuts a path into a parent and a name from behind, `fs_lookup` into names from the front.
What was created under a path is found under it, with two exceptions: the root path, which names a
new entry for the one parser and the root directory for the other, and paths that fit the parent
buffer of the first but not the length limit of the second. A path that has been found once is found
for ever.
-/

namespace Hobby386

open PointerForest Runs

variable {fs fs' fs₀ : Fs} {t : List (Call × ℤ)}

/-- Runs whose writes go to regular files. -/
abbrev FileRun : Fs → List (Call × ℤ) → Fs → Prop := Run Call.exec fun _ fs c => c.OnFiles fs

/-- A run of calls on files keeps soundness. -/
theorem Sound.run (hsound : Sound fs) (h : FileRun fs t fs') : Sound fs' := by
  refine h.preserves ?_ hsound
  intro _ _ _ _ _ hs hfiles hexec
  exact hs.call hfiles (hs.exec_effect hfiles hexec)

section Link

variable {type n x k m : ℕ} {name : CString} (hsound : Sound fs) (hn : n < 200)
  (hdir : (fs.dinode n).type = tDir) (hx : x < 200) (hfree : (fs.dinode x).type = 0)
  (h : LinkEffect fs type n name x k m fs')

include hsound hn hdir hx hfree h

/-- No child gets lost. -/
theorem LinkEffect.child_kept {i : ℕ} (hi : i < 200) {s : List UInt8} (hne : fs.child i s ≠ nullInum) :
    fs'.child i s = fs.child i s := by
  have hidir : (fs.dinode i).type = tDir := by
    by_contra hnot
    exact hne (by rw [Fs.child, if_neg hnot])
  by_cases hin : i = n
  · subst hin
    have hidir' : (fs'.dinode i).type = tDir := by rw [h.parent]; exact hdir
    rw [Fs.child, if_pos hidir, findName] at hne
    rw [Fs.child, Fs.child, if_pos hidir', if_pos hidir, findName, findName,
      h.dirents_parent hsound hi hdir hx, List.find?_append]
    cases hfind : (fs.dirents i).find? fun de => strcmp s de.name = 0 with
    | none =>
      rw [hfind] at hne
      exact absurd rfl hne
    | some de => rfl
  · have hix : i ≠ x := by
      rintro rfl
      rw [hidir] at hfree
      exact absurd hfree (by decide)
    have hused : (fs.dinode i).type ≠ 0 := by rw [hidir]; decide
    have hsame : SameDir fs fs' i := ⟨by rw [h.others i hi hin hix], h.fileBlock_others i hi hin hused,
      h.content_others i hi hin hused⟩
    rw [Fs.child, Fs.child, h.others i hi hin hix, hsame.dirents_eq]

omit hfree in
/-- The new inode is the child of its name. -/
theorem LinkEffect.child_new (hk : k = 16) (hlen : name.bytes.length < maxName)
    (hfresh : fs.child n name.bytes = nullInum) : fs'.child n name.bytes = x := by
  have hdir' : (fs'.dinode n).type = tDir := by rw [h.parent]; exact hdir
  have hfound : strcmp name.bytes (newDirent x name).name = 0 := by
    rw [strcmp_eq_zero_iff, cstr_of_nulFree name.nulFree]
    exact (cstr_strncpy name.nulFree hlen).symm
  rw [Fs.child, if_pos hdir', findName, h.dirents_parent hsound hn hdir hx, if_pos hk, List.find?_append,
    hsound.find?_eq_none hn hdir hfresh, Option.none_or, List.find?_cons_of_pos (by simpa using hfound)]
  rfl

end Link

/-- Writing to a regular file changes no child. -/
theorem FileWritten.child_eq {inum n : ℕ} {c : WriteRequest} (hsound : Sound fs)
    (hreg : (fs.dinode inum).type = tReg) (hinum : inum < 200) (h : FileWritten fs inum c n fs') {i : ℕ}
    (hi : i < 200) (s : List UInt8) : fs'.child i s = fs.child i s := by
  rw [Fs.child, Fs.child, h.type_eq hi]
  split
  · rename_i hdir
    rw [(h.sameDir_of_dir hreg hinum hsound.wellFormed hi (by rw [h.type_eq hi, hdir])).2.dirents_eq]
  · rfl

/-- A path that leads to an inode leads to the same inode after every call. -/
theorem CallEffect.resolve_eq {c : Call} {ret : ℤ} (hsound : Sound fs) (hfiles : c.OnFiles fs)
    (h : CallEffect fs c ret fs') {names : List (List UInt8)}
    (hne : fs.resolve rootInum names ≠ nullInum) :
    fs'.resolve rootInum names = fs.resolve rootInum names := by
  refine resolve_mono hsound.dirs (fun i hi s hs => ?_) (by decide) hne
  cases h with
  | silent same failed =>
    rw [same]
    rfl
  | linked hx hfree htype checks effect =>
    exact effect.child_kept hsound checks.lt checks.dir hx hfree hi hs
  | written effect =>
    exact effect.child_eq hsound hfiles.2.1 (hsound.wellFormed.layout.ninodes ▸ hfiles.1) hi s

/-- What names lead to they lead to after every run. -/
theorem Sound.resolve_run (hsound : Sound fs) (h : FileRun fs t fs') {names : List (List UInt8)}
    (hne : fs.resolve rootInum names ≠ nullInum) :
    fs'.resolve rootInum names = fs.resolve rootInum names := by
  have hboth := hsound.run_keeps (I := fun fs₁ => fs₁.resolve rootInum names = fs.resolve rootInum names)
    (fun _ _ hfiles => hfiles) ?_ rfl h
  · exact hboth.2
  · intro fs₁ c ret fs₂ hs hfiles heffect heq
    exact (heffect.resolve_eq hs hfiles (heq ▸ hne)).trans heq

/-- A run of proper calls is one of calls on files. -/
theorem ProperRun.fileRun (h : ProperRun fs t fs') : FileRun fs t fs' :=
  h.mono fun _ _ _ hproper => hproper.onFiles

/-- An inode in use keeps its type in every run. -/
theorem Sound.type_run (hsound : Sound fs) (h : FileRun fs t fs') {i : ℕ} (hi : i < 200)
    (hused : (fs.dinode i).type ≠ 0) : (fs'.dinode i).type = (fs.dinode i).type := by
  have hboth := hsound.run_keeps (I := fun fs₁ => (fs₁.dinode i).type = (fs.dinode i).type)
    (fun _ _ hfiles => hfiles) ?_ rfl h
  · exact hboth.2
  · intro fs₁ c ret fs₂ _ _ heffect heq
    exact (heffect.type_kept hi (heq ▸ hused)).trans heq

/-- The names of a path that `getname` has cut: those of the parent and then the name. -/
theorem NameOf.pathNames_eq {path name parent : CString} {tail ptail : List UInt8}
    (h : NameOf path name parent tail) (hparent : parent.bytes = slash :: ptail)
    (hname : name.bytes ≠ []) :
    ∃ rest, path.bytes = slash :: rest ∧ pathNames rest = pathNames ptail ++ [name.bytes] := by
  refine ⟨ptail ++ (name.bytes ++ tail), by rw [h.split, hparent, List.cons_append],
    pathNames_append ?_ hname h.name_free h.tail⟩
  have hlast := h.parent_last.resolve_left (by rw [hparent]; exact List.cons_ne_nil _ _)
  cases ptail with
  | nil => exact .inl rfl
  | cons c cs =>
    right
    rwa [hparent, List.getLast?_cons_cons] at hlast

/-- The names of a path other than the root path lead nowhere before a creation, and to the new inode
after it. -/
theorem fsMknod_found (hsound : Sound fs) {path : CString} (hshort : path.ShortNames) {type n : ℕ}
    (h : fsMknod fs (some path) type = .ok (n, fs')) (hn : n ≠ nullInum) (hroot : path.bytes ≠ [slash]) :
    ∃ rest, path.bytes = slash :: rest ∧ fs.resolve rootInum (pathNames rest) = nullInum ∧
      fs'.resolve rootInum (pathNames rest) = n := by
  have hwf := hsound.wellFormed
  obtain ⟨p, name, parent, d, hp, -, hx, hfree, hchecks, heffect, -⟩ :=
    fsMknod_linked hwf hsound.null h hn
  cases hp
  have hfresh := hchecks.child_eq hsound
  obtain ⟨tail, hname⟩ := getname_eq_some hchecks.getname
  have hnonempty : name.bytes ≠ [] := fun hnil => hroot (hname.name_nil hnil)
  obtain ⟨r, hlookup, hd⟩ := hchecks.lookup
  obtain ⟨hplen, ptail, hparent⟩ := absolute_of_fsLookup hlookup (hd ▸ hchecks.ne_null)
  rw [fsLookup_eq hwf.init hwf.layout hsound.dirs hparent hplen
    (hname.parent_shortNames hshort)] at hlookup
  cases hlookup
  dsimp only at hd
  obtain ⟨rest, hbytes, hnames⟩ := hname.pathNames_eq hparent hnonempty
  have hd0 : fs.resolve rootInum (pathNames ptail) ≠ nullInum := hd ▸ hchecks.ne_null
  have hd' : fs'.resolve rootInum (pathNames ptail) = d := by
    rw [resolve_mono hsound.dirs
      (fun i hi s hne => heffect.child_kept hsound hchecks.lt hchecks.dir hx hfree hi
      hne) (by decide) hd0, hd]
  refine ⟨rest, hbytes, ?_, ?_⟩
  · rw [hnames, resolve_append hd0, hd, hfresh]
  · rw [hnames, resolve_append (hd' ▸ hchecks.ne_null), hd',
      heffect.child_new hsound hchecks.lt hchecks.dir hx rfl hname.name_lt hfresh]

/-- A creation keeps soundness. -/
theorem Sound.mknod (hsound : Sound fs) {path : Option CString} {type n : ℕ}
    (h : fsMknod fs path type = .ok (n, fs')) : Sound fs' :=
  hsound.call (c := .mknod path type) trivial (hsound.exec_effect (c := .mknod path type) trivial
    (exec_mknod h))

/-- When `fs_mknod` creates an inode, `fs_lookup` of the same path fails before and finds the inode
after the call, if and only if the path is not the root path and fits the path buffer. -/
theorem fsMknod_lookup_iff (hformatted : Formatted fs₀) (hrun : FileRun fs₀ t fs) {path : CString}
    (hshort : path.ShortNames) {type n : ℕ} (h : fsMknod fs (some path) type = .ok (n, fs'))
    (hn : n ≠ nullInum) :
    ((∃ r, fsLookup fs (some path) = .ok r ∧ r.1 = nullInum) ∧
      ∃ r, fsLookup fs' (some path) = .ok r ∧ r.1 = n) ↔
    path.bytes ≠ [slash] ∧ path.bytes.length < maxPath := by
  have hsound := hformatted.sound.run hrun
  have hwf := hsound.wellFormed
  constructor
  · rintro ⟨⟨r, hbefore, hr⟩, ⟨r', hafter, hr'⟩⟩
    have hlen := (absolute_of_fsLookup hafter (hr' ▸ hn)).1
    refine ⟨fun hroot => ?_, hlen⟩
    rw [fsLookup_eq hwf.init hwf.layout hsound.dirs hroot hlen hshort, pathNames_nil,
      Fs.resolve] at hbefore
    cases hbefore
    exact absurd hr Nat.one_ne_zero
  · rintro ⟨hroot, hlen⟩
    have hsound' := hsound.mknod h
    obtain ⟨rest, hbytes, hbefore, hafter⟩ := fsMknod_found hsound hshort h hn hroot
    exact ⟨⟨_, fsLookup_eq hwf.init hwf.layout hsound.dirs hbytes hlen hshort, hbefore⟩,
      _, fsLookup_eq hsound'.wellFormed.init hsound'.wellFormed.layout hsound'.dirs hbytes hlen
      hshort, hafter⟩

/-- The path of the root directory. -/
def rootPath : CString := ⟨[slash], by decide⟩

/-- In an empty file system `fs_mknod` creates an inode under the root path, which `fs_lookup` finds
to be the root directory all along. -/
theorem fsMknod_root_not_found : ∃ fs₀ fs', Formatted fs₀ ∧ FileRun fs₀ [] fs₀ ∧ rootPath.ShortNames ∧
    fsMknod fs₀ (some rootPath) tReg = .ok (2, fs') ∧
    ¬((∃ r, fsLookup fs₀ (some rootPath) = .ok r ∧ r.1 = nullInum) ∧
      ∃ r, fsLookup fs' (some rootPath) = .ok r ∧ r.1 = 2) := by
  obtain ⟨fs₀, hfresh, hdat⟩ := exists_freshlyMounted
  have hsound := hfresh.sane.sound
  have hshort : rootPath.ShortNames := shortNames_of_length (by decide)
  obtain ⟨fs', hmknod⟩ := hfresh.formatted.1.creates (by omega) (by omega)
    (show getname (some rootPath) = .ok (some (⟨[], by decide⟩, rootPath)) by decide) rfl
    (show tReg ≤ 3 by decide)
  refine ⟨fs₀, fs', hfresh.formatted.1, .start, hshort, hmknod, ?_⟩
  rintro ⟨⟨r, hlookup, hr⟩, -⟩
  rw [hsound.lookup_root rfl] at hlookup
  cases hlookup
  exact absurd hr Nat.one_ne_zero

/-- The characterisation for a first file. -/
theorem fsMknod_lookup_iff_pathA : ∃ fs fs', Formatted fs ∧ fsMknod fs (some pathA) tReg = .ok (2, fs') ∧
    (((∃ r, fsLookup fs (some pathA) = .ok r ∧ r.1 = nullInum) ∧
      ∃ r, fsLookup fs' (some pathA) = .ok r ∧ r.1 = 2) ↔
    pathA.bytes ≠ [slash] ∧ pathA.bytes.length < maxPath) := by
  obtain ⟨fs, fs', hfresh, hmknod, -⟩ := exists_reachable_mknod
  exact ⟨fs, fs', hfresh.formatted.1, hmknod, fsMknod_lookup_iff hfresh.formatted.1 .start
    (shortNames_of_length (by decide)) hmknod (by decide)⟩

/-- What a path leads to in a reachable file system it leads to after every further run, and the inode
keeps its type. -/
theorem fsLookup_stable (h : Reachable fs) {path : Option CString} {n : ℕ} {fs₁ : Fs}
    (hlookup : fsLookup fs path = .ok (n, fs₁)) (hn : n ≠ nullInum) (hrun : ProperRun fs t fs') :
    fsLookup fs' path = .ok (n, fs') ∧ (fs'.dinode n).type = (fs.dinode n).type := by
  cases path with
  | none =>
    cases hlookup
    exact absurd rfl hn
  | some path =>
    have hsound := h.sane.sound
    have hwf := hsound.wellFormed
    have hsound' := hsound.run hrun.fileRun
    obtain ⟨tail, hpath, hlen, hshort, rfl⟩ :=
      resolve_of_fsLookup hwf.init hwf.layout hsound.dirs hlookup hn
    constructor
    · rw [fsLookup_of_pathNames hsound'.wellFormed.init hsound'.wellFormed.layout hsound'.dirs hpath
        hlen hshort, hsound.resolve_run hrun.fileRun hn]
    · have hroot : (fs.dinode rootInum).type ≠ 0 := by rw [hsound.root]; decide
      exact hsound.type_run hrun.fileRun (resolve_lt hsound.dirs (by decide) _)
        (h.tree.resolve_used hsound.dirs (by decide) hroot hn)

/-- A first file is found again after a second one has been created next to it. -/
theorem fsLookup_stable_pathA : ∃ fs fs', Reachable fs ∧
    fsLookup fs (some pathA) = .ok (2, fs) ∧ (fs.dinode 2).type = tReg ∧
    fsMknod fs (some pathB) tReg = .ok (3, fs') ∧
    fsLookup fs' (some pathA) = .ok (2, fs') ∧ (fs'.dinode 2).type = tReg := by
  obtain ⟨fs₀, hfresh, hdat⟩ := exists_freshlyMounted
  have hsound := hfresh.sane.sound
  obtain ⟨fs, fs', hfirst, hsecond⟩ :=
    hfresh.formatted.1.creates_twice (by omega) (by omega) (show tReg ≤ 3 by decide)
      (show tReg ≤ 3 by decide)
  have hreach : Reachable fs := Reachable.call ⟨fs₀, [], hfresh, .start⟩
    (c := .mknod (some pathA) tReg) ⟨by decide, fittingPath_pathA⟩ (exec_mknod hfirst)
  have hshort : pathA.ShortNames := shortNames_of_length (by decide)
  have hlookup : fsLookup fs (some pathA) = .ok (2, fs) := by
    have hsound₁ := hsound.mknod hfirst
    obtain ⟨rest, hbytes, -, hafter⟩ := fsMknod_found hsound hshort hfirst (by decide) (by decide)
    rw [fsLookup_eq hsound₁.wellFormed.init hsound₁.wellFormed.layout hsound₁.dirs hbytes
      (by decide) hshort, hafter]
  have htype : (fs.dinode 2).type = tReg := by
    rw [(fsMknod_new hsound hfirst (by decide)).2.2.2]
  have hrun : ProperRun fs [(.mknod (some pathB) tReg, 3)] fs' :=
    Run.start.call ⟨by decide, fittingPath_pathB⟩ (exec_mknod hsecond)
  have hstable := fsLookup_stable hreach hlookup (by decide) hrun
  exact ⟨fs, fs', hreach, hlookup, htype, hsecond, hstable.1, hstable.2.trans htype⟩

end Hobby386
