import Hobby386.Fs.Reachable

/-!
# Mounting again

No call keeps anything in memory only: the superblock in memory is the one on the disk, and no call
writes to its block. Mounting the partition again therefore changes nothing, and it can be done at any
point of a run without being noticed.
-/

namespace Hobby386

open Runs

variable {fs fs' fs₀ : Fs} {p : Partition}

/-- The superblock in memory is a proper one, and the one of partition `p` on the disk. -/
structure Mounted (p : Partition) (fs : Fs) : Prop where
  init : fs.init = true
  super : (fs.disk p.startlba).su = fs.su
  magic : fs.su.magic = fsMagic

/-- Mounting again changes nothing. -/
theorem Mounted.fsInit_eq (h : Mounted p fs) : fsInit fs p = (true, fs) := by
  have hsame : { fs with su := fs.su, init := true } = fs := by rw [← h.init]
  rw [fsInit, Fs.diskRead, h.super, if_neg (not_not_intro h.magic), hsame]

/-- After a successful `fs_init` the partition is mounted. -/
theorem mounted_of_fsInit (h : fsInit fs p = (true, fs')) : Mounted p fs' := by
  rw [fsInit] at h
  split at h
  · cases h
  · rename_i hmagic
    cases h
    exact ⟨rfl, rfl, not_not.mp hmagic⟩

/-- The mount of `mkfs` is a mount. -/
theorem mounted_of_mkfsMount (h : mkfsMount fs p = .ok fs') : Mounted p fs' := by
  rw [mkfsMount] at h
  generalize hfirst : fsInit fs p = r at h
  obtain ⟨ok, fs₁⟩ := r
  cases ok with
  | true =>
    cases h
    exact mounted_of_fsInit hfirst
  | false =>
    dsimp only at h
    generalize hsecond : fsInit (fsFormat fs₁ p) p = r at h
    obtain ⟨ok, fs₂⟩ := r
    cases ok with
    | true =>
      cases h
      exact mounted_of_fsInit hsecond
    | false => cases h

/-- No call writes in front of the inode table. -/
theorem CallEffect.front {c : Call} {ret : ℤ} (h : CallEffect fs c ret fs') (hwf : WellFormed fs)
    (happl : c.Applicable fs) {b : ℕ} (hb : b < fs.su.sinode) : fs'.disk b = fs.disk b := by
  cases h with
  | silent same failed => rw [same]
  | linked hx hfree htype checks effect => exact effect.frame b hb
  | written effect => exact effect.disk_of_lt hwf happl.1 hb

/-- A call keeps the mount. -/
theorem CallEffect.init_eq {c : Call} {ret : ℤ} (h : CallEffect fs c ret fs') (hwf : WellFormed fs)
    (happl : c.Applicable fs) : fs'.init = fs.init := by
  rw [(h.wellFormed hwf happl).init, hwf.init]

/-! ## Operations with everything the caller gets -/

/-- The calls of a program, those that mount the partition again among them. -/
inductive Op
  | mknod (path : Option CString) (type : ℕ)
  | write (inum : ℕ) (buf : Memory) (sz : ℤ) (off : ℕ)
  | read (inum : ℕ) (buf : Memory) (sz : ℤ) (off : ℕ)
  | geti (inum : ℕ)
  | lookup (path : Option CString)
  | mount

/-- What the caller gets: a value, a value and the memory behind the buffer, or an inode. -/
inductive Answer
  | value (n : ℤ)
  | bytes (n : ℤ) (mem : Memory)
  | inode (di : Option Dinode)

/-- Making a call on the file system of partition `p`. -/
def Op.exec (p : Partition) : Op → Fs → Except Fault (Answer × Fs)
  | .mknod path type, fs => do
    let r ← fsMknod fs path type
    .ok (.value r.1, r.2)
  | .write inum buf sz off, fs => do
    let r ← fsWrite fs inum buf sz off
    .ok (.value r.1, r.2)
  | .read inum buf sz off, fs => do
    let r ← fsRead fs inum buf sz off
    .ok (.bytes r.1 r.2.1, r.2.2)
  | .geti inum, fs => .ok (.inode (fsGeti fs inum).1, (fsGeti fs inum).2)
  | .lookup path, fs => do
    let r ← fsLookup fs path
    .ok (.value r.1, r.2)
  | .mount, fs => .ok (.value (if (fsInit fs p).1 then 0 else -1), (fsInit fs p).2)

/-- Inodes are created with a proper type under a path that fits, and writes go to regular files. -/
def Op.Proper (fs : Fs) : Op → Prop
  | .mknod path type => (Call.mknod path type).Proper fs
  | .write inum buf sz off => (Call.write inum buf sz off).Proper fs
  | _ => True

/-- The call mounts the partition again. -/
def Op.isMount : Op → Bool
  | .mount => true
  | _ => false

/-- Runs of proper operations on partition `p`. -/
abbrev OpRun (p : Partition) : Fs → List (Op × Answer) → Fs → Prop :=
  Run (Op.exec p) fun _ fs op => op.Proper fs

/-- The invariant of these runs. -/
structure Remountable (p : Partition) (fs : Fs) : Prop where
  sound : Sound fs
  mounted : Mounted p fs
  front : p.startlba < fs.su.sinode

/-- Every call that is not one to mount keeps the partition mounted. -/
theorem Remountable.call {c : Call} {ret : ℤ} (h : Remountable p fs) (hfiles : c.OnFiles fs)
    (hexec : c.exec fs = .ok (ret, fs')) : Remountable p fs' := by
  have hwf := h.sound.wellFormed
  have heffect := h.sound.exec_effect hfiles hexec
  have hsu := heffect.su_eq
  refine ⟨h.sound.call hfiles heffect, ⟨?_, ?_, ?_⟩, ?_⟩
  · rw [heffect.init_eq hwf hfiles.applicable, h.mounted.init]
  · rw [heffect.front hwf hfiles.applicable h.front, hsu, h.mounted.super]
  · rw [hsu, h.mounted.magic]
  · rw [hsu]
    exact h.front

/-- A call or a mount keeps the file system remountable. -/
theorem Remountable.op {op : Op} {a : Answer} (h : Remountable p fs) (hproper : op.Proper fs)
    (hexec : op.exec p fs = .ok (a, fs')) : Remountable p fs' := by
  cases op with
  | mknod path type =>
    rw [Op.exec, bind_eq_ok] at hexec
    obtain ⟨r, hmknod, hexec⟩ := hexec
    cases hexec
    exact h.call (c := .mknod path type) trivial (exec_mknod hmknod)
  | write inum buf sz off =>
    rw [Op.exec, bind_eq_ok] at hexec
    obtain ⟨r, hwrite, hexec⟩ := hexec
    cases hexec
    exact h.call (c := .write inum buf sz off) hproper hwrite
  | read inum buf sz off =>
    rw [Op.exec, bind_eq_ok] at hexec
    obtain ⟨r, hread, hexec⟩ := hexec
    cases hexec
    exact h.call (c := .read inum buf sz off) trivial (by rw [Call.exec, hread, ok_bind])
  | geti inum =>
    cases hexec
    have hsame := sameStore_readInode fs inum
    refine ⟨h.sound.of_sameStore hsame, ?_, ?_⟩
    · rw [fsGeti, hsame]
      exact ⟨h.mounted.init, h.mounted.super, h.mounted.magic⟩
    · rw [fsGeti, hsame]
      exact h.front
  | lookup path =>
    rw [Op.exec, bind_eq_ok] at hexec
    obtain ⟨r, hlookup, hexec⟩ := hexec
    cases hexec
    exact h.call (c := .lookup path) trivial (by rw [Call.exec, hlookup, ok_bind])
  | mount =>
    rw [Op.exec, h.mounted.fsInit_eq] at hexec
    cases hexec
    exact h

/-- Mounting again returns 0 and changes nothing. -/
theorem Remountable.mount (h : Remountable p fs) {op : Op} (hop : op.isMount = true) :
    op.Proper fs ∧ op.exec p fs = .ok (.value 0, fs) := by
  cases op with
  | mount => exact ⟨trivial, by rw [Op.exec, h.mounted.fsInit_eq]; rfl⟩
  | _ => cases hop

/-- The first mount of a blank partition is remountable. -/
theorem remountable_mkfsMount (hp : p.Usable) {disk : Disk} (hzero : ∀ n, p.Contains n → disk n = .zero)
    (h : mkfsMount (Fs.boot disk) p = .ok fs₀) : Remountable p fs₀ := by
  obtain ⟨fs₁, hmount, hformatted, hsu⟩ := formatted_mkfsMount hp hzero
  rw [h] at hmount
  cases hmount
  refine ⟨hformatted.sound, mounted_of_mkfsMount h, ?_⟩
  rw [hsu, newSuper_eq hp]
  simp only
  omega

/-- Mounting the partition again, at any points of a run and any number of times, returns 0 and changes
neither an answer of any other call nor the state that is reached. -/
theorem remounts_unnoticed (hp : p.Usable) {disk : Disk} (hzero : ∀ n, p.Contains n → disk n = .zero)
    (h : mkfsMount (Fs.boot disk) p = .ok fs₀) {t : List (Op × Answer)} :
    OpRun p fs₀ t fs' ↔ (∀ e ∈ t, e.1.isMount = true → e.2 = .value 0) ∧
      OpRun p fs₀ (t.filter fun e => !e.1.isMount) fs' :=
  Run.filter_iff Op.isMount (.value 0) (fun _ _ hs hop => hs.mount hop)
    (fun _ _ _ _ hs hproper hexec => hs.op hproper hexec) (remountable_mkfsMount hp hzero h)

/-- A file is created in a new file system that is mounted twice more. -/
theorem remounts_unnoticed_mknod : ∃ fs₀ fs', mkfsMount (Fs.boot fun _ => .zero) ⟨0, 65⟩ = .ok fs₀ ∧
    OpRun ⟨0, 65⟩ fs₀ [(.mount, .value 0), (.mknod (some pathA) tReg, .value 2), (.mount, .value 0)]
    fs' := by
  have hp : (Partition.mk 0 65).Usable := by constructor <;> decide
  have hzero : ∀ n, (Partition.mk 0 65).Contains n → (fun _ => Block.zero : Disk) n = .zero :=
    fun _ _ => rfl
  obtain ⟨fs₀, hmount, hformatted, hsu⟩ := formatted_mkfsMount hp hzero
  have hdat : fs₀.su.nblockDat = 8 := by rw [hsu]; rfl
  have hcut : getname (some pathA) = .ok (some (⟨[97], by decide⟩, ⟨[slash], by decide⟩)) := by decide
  obtain ⟨fs', hmknod⟩ := hformatted.creates (by omega) (by omega) hcut rfl (show tReg ≤ 3 by decide)
  refine ⟨fs₀, fs', hmount, (remounts_unnoticed hp hzero hmount).mpr ⟨?_, ?_⟩⟩
  · intro e he hop
    simp only [List.mem_cons, List.not_mem_nil, or_false] at he
    rcases he with rfl | rfl | rfl
    · rfl
    · cases hop
    · rfl
  · exact Run.start.call ⟨by decide, fittingPath_pathA⟩ (by rw [Op.exec, hmknod, ok_bind]; rfl)

end Hobby386
