import Hobby386.Lib.Runs
import Hobby386.Fs.Format
import Hobby386.Fs.Lookup

/-!
# The commands of the boot shell

`process_command` with the commands `ls` and `set`. They work on three pieces of state that are
changed at different points: the recorded root, the selected drive and the mounted superblock. A
command that fails after it has selected a drive leaves the new selection behind, and the recorded
root as it was.
-/

namespace Hobby386

open Runs

/-! ## The drives -/

/-- `struct ide_drive`, with the disk behind it. -/
structure IdeDrive where
  exist : Bool
  msdos : Bool
  partitions : ℕ → Partition
  disk : Disk

/-- The structs `grab` and `ide` and the state of the file system. -/
structure Machine where
  rootdrive : ℤ
  rootpartition : ℤ
  drives : ℕ → IdeDrive
  driveSel : ℕ
  init : Bool
  su : Superblock
  printed : List (String × List PrintArg)

/-- `printf`. -/
def Machine.printf (m : Machine) (fmt : String) (args : List PrintArg) : Machine :=
  { m with printed := m.printed ++ [(fmt, args)] }

/-- `ide_sel`: `true` for the return value 0. -/
def Machine.ideSel (m : Machine) (drivenum : ℕ) : Bool × Machine :=
  if (m.drives drivenum).exist = false then (false, m) else (true, { m with driveSel := drivenum })

/-- `ide_get_partitions`. -/
def Machine.ideGetPartitions (m : Machine) : Option (ℕ → Partition) :=
  if (m.drives m.driveSel).msdos = false then none else some (m.drives m.driveSel).partitions

/-- The file system implementation, whose `disk_read` and `disk_write` are those of the selected
drive. -/
def Machine.fs (m : Machine) : Fs := ⟨m.init, m.su, (m.drives m.driveSel).disk, m.printed⟩

/-- The machine after a call of the file system. -/
def Machine.setFs (m : Machine) (fs : Fs) : Machine :=
  { m with
    drives := Function.update m.drives m.driveSel { m.drives m.driveSel with disk := fs.disk }
    init := fs.init
    su := fs.su
    printed := fs.printed }

/-! ## Words -/

/-- `isspace`. -/
def isspace (c : UInt8) : Bool := c = 9 || c = 32

/-- `isdigit`. -/
def isdigit (c : UInt8) : Bool := 48 ≤ c && c ≤ 57

/-- `strncmp` of `util.c`. Its counter is not moved, so a positive bound does not bound anything. -/
def strncmp (s1 s2 : List UInt8) (n : ℕ) : ℤ := if 0 < n then strcmp s1 s2 else 0

/-- `nextword`: the word, and the text behind it if the word does not end the string. -/
def nextword (p : CString) : Option CString × Option CString :=
  let i := (p.bytes.takeWhile isspace).length
  let n := ((p.bytes.drop i).takeWhile fun c => !isspace c).length
  (if i = p.bytes.length then none else some (p.slice i n),
    if i + n = p.bytes.length then none else some (p.slice (i + n + 1) (p.bytes.length - (i + n + 1))))

/-- `set` replaces every `'='` by a blank. -/
def CString.blankEquals (s : CString) : CString where
  bytes := s.bytes.map fun c => if c = 61 then 32 else c
  nulFree := by
    intro h
    obtain ⟨c, hc, hzero⟩ := List.mem_map.mp h
    split at hzero
    · cases hzero
    · exact s.nulFree (hzero ▸ hc)

/-! ## The commands -/

/-- What a command has come to: it has returned, it is `boot` and starts to load a system, or it is
`ls` and has not come to the end of a directory. -/
inductive Outcome
  | returned
  | boots
  | listing
  deriving DecidableEq

/-- The loop of `ide_list` over the partitions of drive `x`. -/
def listPartitions (m : Machine) (x : ℕ) (partitions : ℕ → Partition) : Machine :=
  (List.range 4).foldl (fun m y =>
    if (partitions y).nsectors = 0 then m else m.printf "(hd%d,msdos%d) " [.num x, .num y]) m

/-- The loop body of `ide_list`. -/
def listDrive (m : Machine) (x : ℕ) : Machine :=
  match m.ideSel x with
  | (false, m) => m
  | (true, m) =>
    match m.ideGetPartitions with
    | none => m.printf "(hd%d,?) " [.num x]
    | some partitions => listPartitions m x partitions

/-- `ide_list`. -/
def ideList (m : Machine) : Machine := ((List.range 4).foldl listDrive m).printf "\n" []

/-- The format check of `getXY`. -/
def FormXY (s : List UInt8) : Prop :=
  7 ≤ s.length ∧ s.getD 0 0 = 40 ∧ s.getD 1 0 = 104 ∧ s.getD 2 0 = 100 ∧ isdigit (s.getD 3 0) = true ∧
    s.getD 4 0 = 44 ∧ isdigit (s.getD 5 0) = true ∧ s.getD 6 0 = 41

instance (s : List UInt8) : Decidable (FormXY s) := inferInstanceAs (Decidable (_ ∧ _))

/-- The digit at an index. -/
def digit (s : List UInt8) (i : ℕ) : ℕ := (s.getD i 0).toNat - 48

/-- `getXY`: the drive and the partition, `none` for the return value -1. -/
def getXY (m : Machine) (s caller : List UInt8) : Option (ℕ × ℕ) × Machine :=
  if ¬FormXY s then (none, m.printf "%s: inalid (hdX,Y)\n" [.str caller])
  else
    let x := digit s 3
    let y := digit s 5
    if 4 ≤ x then (none, m.printf "%s: invalid drive number: %d\n" [.str caller, .num x])
    else if 4 ≤ y then (none, m.printf "%s: invalid partition number: %d\n" [.str caller, .num y])
    else
      match m.ideSel x with
      | (false, m) => (none, m.printf "%s: drive doesn't exist: %d\n" [.str caller, .num x])
      | (true, m) =>
        match m.ideGetPartitions with
        | none => (none, m.printf "%s: not msdos: %d\n" [.str caller, .num y])
        | some partitions =>
          if (partitions y).nsectors = 0 then
            (none, m.printf "%s: zero partition: %d\n" [.str caller, .num y])
          else
            let r := fsInit m.fs (partitions y)
            let m := m.setFs r.2
            if r.1 = false then
              (none, m.printf "%s: no fs detected in partition: %d\n" [.str caller, .num y])
            else (some (x, y), m)

/-- The loop of `ls` over the entries of a directory, from offset `off` on; the flag tells whether
it has come to the end. A name is printed up to its terminator. -/
def listEntries (inum : ℕ) : (fuel off : ℕ) → Fs → Except Fault (Bool × Fs)
  | 0, _, fs => .ok (false, fs)
  | fuel + 1, off, fs => do
    let r ← fsRead fs inum (fun _ => 0) direntSize off
    if r.1 < 0 then .error .panic
    else if r.1 = 0 then .ok (true, r.2.2)
    else
      let d := Dirent.ofBytes r.2.1 0
      let fs := if d.inum = 0 then r.2.2 else r.2.2.printf "%s\n" [.str (cstr d.name)]
      listEntries inum fuel (u32 (off + direntSize)) fs

/-- `ls`. It dereferences its argument, which is a null pointer when the command ends the line. -/
def ls (fuel : ℕ) (m : Machine) (args : Option CString) : Except Fault (Outcome × Machine) :=
  match args with
  | none => .error .outOfBounds
  | some args =>
    match (nextword args).1 with
    | none => .ok (.returned, ideList m)
    | some path =>
      match getXY m path.bytes [108, 115] with
      | (none, m) => .ok (.returned, m)
      | (some _, m) => do
        let path := path.slice 7 (path.bytes.length - 7)
        let r ← fsLookup m.fs (some path)
        let m := m.setFs r.2
        if r.1 = nullInum then
          .ok (.returned, m.printf "ls: %s: no such file or directory\n" [.str path.bytes])
        else
          let l ← listEntries r.1 fuel 0 m.fs
          .ok (if l.1 then .returned else .listing, m.setFs l.2)

/-- The path of the directory that holds the systems. -/
def bootPath : CString := ⟨[47, 98, 111, 111, 116], by decide⟩

/-- The end of `set`, with the drive and the partition mounted. -/
def setRoot (m : Machine) (x y : ℕ) : Except Fault Machine := do
  let r ← fsLookup m.fs (some bootPath)
  let m := m.setFs r.2
  if r.1 = nullInum then .ok (m.printf "set: /boot not found\n" [])
  else
    match fsGeti m.fs r.1 with
    | (none, _) => .error .panic
    | (some di, fs) =>
      let m := m.setFs fs
      if di.type ≠ tDir then .ok (m.printf "set: /boot is not a directoy\n" [])
      else if di.size = 0 then .ok (m.printf "set: /boot is empty\n" [])
      else .ok { m with rootdrive := x, rootpartition := y }

/-- The branch of `set` for the name `root`. -/
def setValue (m : Machine) (value : CString) : Except Fault Machine :=
  match getXY m value.bytes [115, 101, 116] with
  | (none, m) => .ok m
  | (some (x, y), m) => setRoot m x y

/-- `set`. It dereferences its argument in the same way, and what stands behind the name. -/
def set (m : Machine) (args : Option CString) : Except Fault Machine :=
  match args with
  | none => .error .outOfBounds
  | some args =>
    match nextword args.blankEquals with
    | (none, _) => .ok (m.printf "set: no name specified\n" [])
    | (some _, none) => .error .outOfBounds
    | (some name, some args) =>
      match (nextword args).1 with
      | none => .ok (m.printf "set: no value specified\n" [])
      | some value =>
        if strncmp [114, 111, 111, 116] name.bytes 4 = 0 then setValue m value
        else .ok (m.printf "set: invalid name: %s\n" [.str name.bytes])

/-- The start of `boot`. -/
def boot (m : Machine) : Outcome × Machine :=
  if m.rootdrive = -1 then (.returned, m.printf "cat: root hasn't been set\n" []) else (.boots, m)

/-- `process_command`. -/
def processCommand (fuel : ℕ) (cmd : CString) (m : Machine) : Except Fault (Outcome × Machine) :=
  match nextword cmd with
  | (none, _) => .ok (.returned, m)
  | (some this, next) =>
    if strncmp [108, 115] this.bytes 2 = 0 then ls fuel m next
    else if strncmp [98, 111, 111, 116] this.bytes 4 = 0 then .ok (boot m)
    else if strncmp [115, 101, 116] this.bytes 3 = 0 then do
      let m ← set m next
      .ok (.returned, m)
    else .ok (.returned, m)

/-! ## The root in step -/

/-- The superblock of partition `y` of drive `x`. -/
def Machine.superOf (m : Machine) (x y : ℕ) : Superblock :=
  ((m.drives x).disk ((m.drives x).partitions y).startlba).su

/-- When a root is recorded, its drive is selected and the superblock of its partition is mounted. -/
def Machine.InStep (m : Machine) : Prop :=
  m.rootdrive ≠ -1 → m.rootdrive = m.driveSel ∧ m.su = m.superOf m.driveSel m.rootpartition.toNat

/-- The last drive that exists. -/
def Machine.lastDrive (m : Machine) : Option ℕ :=
  ((List.range 4).filter fun x => (m.drives x).exist).getLast?

/-- The text names partition `y` of drive `x`, and the drive exists. -/
structure Machine.Names (m : Machine) (s : CString) (x y : ℕ) : Prop where
  form : FormXY s.bytes
  drive : digit s.bytes 3 = x
  partition : digit s.bytes 5 = y
  drive_lt : x < 4
  partition_lt : y < 4
  exist : (m.drives x).exist = true

/-- Drive `x` has a partition `y`. -/
def Machine.HasPartition (m : Machine) (x y : ℕ) : Prop :=
  (m.drives x).msdos = true ∧ ((m.drives x).partitions y).nsectors ≠ 0

/-- The file system of partition `y` of drive `x`, mounted. -/
def Machine.mounted (m : Machine) (x y : ℕ) : Fs := ⟨true, m.superOf x y, (m.drives x).disk, m.printed⟩

/-- Partition `y` of drive `x` holds a file system with a directory `/boot` that is not empty. -/
def Machine.Bootable (m : Machine) (x y : ℕ) : Prop :=
  m.HasPartition x y ∧ (m.superOf x y).magic = fsMagic ∧
    ∃ inum fs, fsLookup (m.mounted x y) (some bootPath) = .ok (inum, fs) ∧ inum ≠ nullInum ∧
      ∃ di, (fsGeti fs inum).1 = some di ∧ di.type = tDir ∧ di.size ≠ 0

/-- The drive that the text names, if it names any that exists, is the selected one, and the
superblock of the partition, if there is one, is the mounted one. -/
def Machine.StaysAt (m : Machine) (s : CString) : Prop :=
  ∀ x y, m.Names s x y → x = m.driveSel ∧ (m.HasPartition x y → m.superOf x y = m.su)

/-- The text names a partition that can be booted from. -/
def Machine.Accepts (m : Machine) (s : CString) : Prop := ∃ x y, m.Names s x y ∧ m.Bootable x y

/-- Listing leaves the recorded root where it is: a list of all drives ends with the selected one,
and a path does not lead away from the mounted partition. -/
def Machine.KeepsLs (m : Machine) (args : Option CString) : Prop :=
  ∀ args', args = some args' →
    ((nextword args').1 = none → ∀ x, m.lastDrive = some x → x = m.driveSel) ∧
    ∀ s, (nextword args').1 = some s → m.StaysAt s

/-- Setting the root succeeds or leaves the recorded root where it is. -/
def Machine.KeepsSet (m : Machine) (args : Option CString) : Prop :=
  ∀ args' name rest s, args = some args' → nextword args'.blankEquals = (some name, some rest) →
    (nextword rest).1 = some s → strncmp [114, 111, 111, 116] name.bytes 4 = 0 → m.StaysAt s ∨
    m.Accepts s

/-- The command line leaves the recorded root in step. -/
def Machine.Keeps (m : Machine) (cmd : CString) : Prop :=
  m.rootdrive ≠ -1 → ∀ this, (nextword cmd).1 = some this →
    (strncmp [108, 115] this.bytes 2 = 0 → m.KeepsLs (nextword cmd).2) ∧
    (strncmp [108, 115] this.bytes 2 ≠ 0 → strncmp [98, 111, 111, 116] this.bytes 4 ≠ 0 →
      strncmp [115, 101, 116] this.bytes 3 = 0 → m.KeepsSet (nextword cmd).2)

/-! ## What the commands change -/

/-- The machines differ in the printed text at most. -/
def Machine.Silent (m m' : Machine) : Prop := m' = { m with printed := m'.printed }

/-- The machine with drive `x` selected. -/
def Machine.select (m : Machine) (x : ℕ) : Machine := { m with driveSel := x }

/-- The machine with partition `y` of drive `x` read as a file system. -/
def Machine.mountAt (m : Machine) (x y : ℕ) (init : Bool) : Machine :=
  { m with driveSel := x, su := m.superOf x y, init := init }

variable {m m' m₁ m₂ : Machine} {s : CString} {x y : ℕ}

namespace Machine

/-- Doing nothing is silent. -/
theorem Silent.refl (m : Machine) : m.Silent m := rfl

/-- Printing is silent. -/
theorem Silent.printf (m : Machine) (fmt : String) (args : List PrintArg) :
    m.Silent (m.printf fmt args) := rfl

/-- Two silent steps. -/
theorem Silent.trans (h : m.Silent m₁) (h' : m₁.Silent m₂) : m.Silent m₂ := by
  rw [Silent] at h h' ⊢
  rw [h', h]

/-- Silent steps keep the root drive and the selected drive in step. -/
theorem Silent.inStep (h : m.Silent m') : m'.InStep ↔ m.InStep := by
  rw [h]
  rfl

/-- A file system with the same store is a silent change. -/
theorem Silent.of_setFs {fs : Fs} (h : SameStore m.fs fs) : m.Silent (m.setFs fs) := by
  rw [h, Silent, setFs]
  simp only [Machine.fs, Function.update_eq_self]

/-- The file system that has been set. -/
@[simp] theorem fs_setFs (m : Machine) (fs : Fs) : (m.setFs fs).fs = fs := by
  simp only [Machine.fs, setFs, Function.update_self]

/-- A word names one drive and one partition. -/
theorem Names.unique {x' y' : ℕ} (h : m.Names s x y) (h' : m.Names s x' y') : x = x' ∧ y = y' :=
  ⟨h.drive.symm.trans h'.drive, h.partition.symm.trans h'.partition⟩

/-- A new selection is in step only if it is the old one. -/
theorem inStep_select (h : m.InStep) (hroot : m.rootdrive ≠ -1) : (m.select x).InStep ↔
    x = m.driveSel := by
  obtain ⟨hdrive, hsu⟩ := h hroot
  constructor
  · intro hstep
    have hx : m.rootdrive = x := (hstep hroot).1
    omega
  · rintro rfl
    exact h

/-- The same with a superblock of the selected drive mounted. -/
theorem inStep_mountAt (h : m.InStep) (hroot : m.rootdrive ≠ -1) (init : Bool) :
    (m.mountAt x y init).InStep ↔ x = m.driveSel ∧ m.superOf x y = m.su := by
  obtain ⟨hdrive, hsu⟩ := h hroot
  constructor
  · intro hstep
    obtain ⟨hx, hsuper⟩ := hstep hroot
    obtain rfl : x = m.driveSel := Int.ofNat_inj.mp (hx.symm.trans hdrive)
    exact ⟨rfl, hsuper.trans hsu.symm⟩
  · rintro ⟨rfl, hsuper⟩ -
    exact ⟨hdrive, hsuper.trans hsu⟩

/-- A missing drive is not selected. -/
theorem ideSel_false (h : (m.drives x).exist = false) : m.ideSel x = (false, m) := if_pos h

/-- A drive that exists is selected. -/
theorem ideSel_true (h : (m.drives x).exist = true) : m.ideSel x = (true, m.select x) :=
  if_neg (by simp [h])

/-- Mounting a partition that holds no file system. -/
theorem fsInit_misread (hmagic : (m.superOf x y).magic ≠ fsMagic) :
    (fsInit (m.select x).fs ((m.drives x).partitions y)).1 = false ∧
      (m.select x).setFs (fsInit (m.select x).fs ((m.drives x).partitions y)).2 =
      m.mountAt x y m.init := by
  have hinit : fsInit (m.select x).fs ((m.drives x).partitions y) =
      (false, { (m.select x).fs with su := m.superOf x y }) := if_pos hmagic
  rw [hinit]
  refine ⟨rfl, ?_⟩
  simp only [setFs, select, Machine.fs, mountAt, Function.update_eq_self]

/-- Mounting a partition. -/
theorem fsInit_mounted (hmagic : (m.superOf x y).magic = fsMagic) :
    (fsInit (m.select x).fs ((m.drives x).partitions y)).1 = true ∧
      (m.select x).setFs (fsInit (m.select x).fs ((m.drives x).partitions y)).2 =
      m.mountAt x y true := by
  have hinit : fsInit (m.select x).fs ((m.drives x).partitions y) =
      (true, { (m.select x).fs with su := m.superOf x y, init := true }) := if_neg (not_not_intro hmagic)
  rw [hinit]
  refine ⟨rfl, ?_⟩
  simp only [setFs, select, Machine.fs, mountAt, Function.update_eq_self]

end Machine

open Machine

/-- Listing the partitions of a drive only prints. -/
theorem listPartitions_silent (m : Machine) (x : ℕ) (partitions : ℕ → Partition) :
    m.Silent (listPartitions m x partitions) := by
  rw [listPartitions]
  generalize List.range 4 = ys
  induction ys using List.reverseRecOn with
  | nil => exact .refl _
  | append_singleton ys y ih =>
    rw [List.foldl_append, List.foldl_cons, List.foldl_nil]
    split
    · exact ih
    · exact ih.trans (.printf _ _ _)

/-- Listing a drive selects it. -/
theorem listDrive_silent (m : Machine) (x : ℕ) :
    (if (m.drives x).exist = true then m.select x else m).Silent (listDrive m x) := by
  rw [listDrive]
  cases hexist : (m.drives x).exist with
  | false =>
    rw [ideSel_false hexist]
    exact .refl m
  | true =>
    rw [ideSel_true hexist, if_pos rfl]
    dsimp only
    split
    · exact .printf _ _ _
    · exact listPartitions_silent _ _ _

/-- Listing drives selects the last one that exists. -/
theorem listDrives_silent (m : Machine) (xs : List ℕ) :
    (m.select ((xs.filter fun x => (m.drives x).exist).getLast?.getD m.driveSel)).Silent
      (xs.foldl listDrive m) := by
  induction xs using List.reverseRecOn with
  | nil => exact .refl m
  | append_singleton xs x ih =>
    rw [List.foldl_append, List.foldl_cons, List.foldl_nil, List.filter_append]
    have hlast := listDrive_silent (xs.foldl listDrive m) x
    have hdrives : (xs.foldl listDrive m).drives = m.drives := by
      rw [ih]
      rfl
    rw [hdrives] at hlast
    cases hexist : (m.drives x).exist with
    | false =>
      rw [List.filter_cons_of_neg (by simp [hexist]), List.filter_nil, List.append_nil]
      rw [if_neg (by simp [hexist])] at hlast
      exact ih.trans hlast
    | true =>
      rw [List.filter_cons_of_pos (by simp [hexist]), List.filter_nil, List.getLast?_concat,
        Option.getD_some]
      rw [if_pos hexist] at hlast
      have hselect : (m.select x).Silent ((xs.foldl listDrive m).select x) := by
        rw [ih]
        rfl
      exact hselect.trans hlast

/-- `ide_list` leaves the drives in step exactly when the last drive is the selected one. -/
theorem ideList_inStep (h : m.InStep) :
    (ideList m).InStep ↔ (m.rootdrive ≠ -1 → ∀ x, m.lastDrive = some x → x = m.driveSel) := by
  have hlist : (m.select (m.lastDrive.getD m.driveSel)).Silent (ideList m) :=
    (listDrives_silent m (List.range 4)).trans (.printf _ _ _)
  rw [hlist.inStep]
  by_cases hroot : m.rootdrive = -1
  · exact ⟨fun _ hne => absurd hroot hne, fun _ hne => absurd hroot hne⟩
  · rw [inStep_select h hroot]
    cases m.lastDrive with
    | none => exact ⟨fun _ _ x hx => (nomatch hx), fun _ => rfl⟩
    | some d =>
      constructor
      · rintro hd - x hx
        cases hx
        exact hd
      · intro hall
        exact hall hroot d rfl

/-- What `getXY` can do. -/
inductive XYEffect (m : Machine) (s : CString) : Option (ℕ × ℕ) × Machine → Prop
  | unnamed {m' : Machine} (unnamed : ∀ x y, ¬m.Names s x y) (silent : m.Silent m') :
    XYEffect m s (none, m')
  | selected {x y : ℕ} {m' : Machine} (names : m.Names s x y) (missing : ¬m.HasPartition x y)
      (silent : (m.select x).Silent m') : XYEffect m s (none, m')
  | misread {x y : ℕ} {m' : Machine} (names : m.Names s x y) (partition : m.HasPartition x y)
      (magic : (m.superOf x y).magic ≠ fsMagic) (silent : (m.mountAt x y m.init).Silent m') :
      XYEffect m s (none, m')
  | mounted {x y : ℕ} (names : m.Names s x y) (partition : m.HasPartition x y)
      (magic : (m.superOf x y).magic = fsMagic) : XYEffect m s (some (x, y), m.mountAt x y true)

/-- What `get_xy` does to the machine. -/
theorem getXY_effect (m : Machine) (s : CString) (caller : List UInt8) :
    XYEffect m s (getXY m s.bytes caller) := by
  rw [getXY]
  by_cases hform : FormXY s.bytes
  swap
  · rw [if_pos hform]
    exact .unnamed (fun x y hnames => hform hnames.form) (.printf _ _ _)
  rw [if_neg (not_not_intro hform)]
  dsimp only
  by_cases hx : 4 ≤ digit s.bytes 3
  · rw [if_pos hx]
    refine .unnamed (fun x y hnames => ?_) (.printf _ _ _)
    exact absurd (hnames.drive ▸ hnames.drive_lt) (Nat.not_lt.mpr hx)
  rw [if_neg hx]
  by_cases hy : 4 ≤ digit s.bytes 5
  · rw [if_pos hy]
    refine .unnamed (fun x y hnames => ?_) (.printf _ _ _)
    exact absurd (hnames.partition ▸ hnames.partition_lt) (Nat.not_lt.mpr hy)
  rw [if_neg hy]
  by_cases hexist : (m.drives (digit s.bytes 3)).exist = true
  swap
  · rw [ideSel_false (Bool.eq_false_of_not_eq_true hexist)]
    exact .unnamed (fun x y hnames => hexist (hnames.drive.symm ▸ hnames.exist)) (.printf _ _ _)
  have hnames : m.Names s (digit s.bytes 3) (digit s.bytes 5) :=
    ⟨hform, rfl, rfl, Nat.not_le.mp hx, Nat.not_le.mp hy, hexist⟩
  rw [ideSel_true hexist]
  generalize digit s.bytes 3 = x at *
  generalize digit s.bytes 5 = y at *
  dsimp only
  have hget : (m.select x).ideGetPartitions =
      if (m.drives x).msdos = false then none else some (m.drives x).partitions := rfl
  rw [hget]
  by_cases hmsdos : (m.drives x).msdos = false
  · rw [if_pos hmsdos]
    exact .selected hnames (fun hp => by simp [hp.1] at hmsdos) (.printf _ _ _)
  rw [if_neg hmsdos]
  dsimp only
  by_cases hsize : ((m.drives x).partitions y).nsectors = 0
  · rw [if_pos hsize]
    exact .selected hnames (fun hp => hp.2 hsize) (.printf _ _ _)
  rw [if_neg hsize]
  have hp : m.HasPartition x y := ⟨Bool.eq_true_of_not_eq_false hmsdos, hsize⟩
  by_cases hmagic : (m.superOf x y).magic = fsMagic
  · obtain ⟨hret, hmount⟩ := fsInit_mounted hmagic
    rw [hret, hmount, if_neg (by decide)]
    exact .mounted hnames hp hmagic
  · obtain ⟨hret, hmount⟩ := fsInit_misread hmagic
    rw [hret, hmount, if_pos rfl]
    exact .misread hnames hp hmagic (.printf _ _ _)

/-- After `getXY` the recorded root is in step if and only if the text has not led away from it. -/
theorem XYEffect.inStep {r : Option (ℕ × ℕ) × Machine} (heffect : XYEffect m s r) (h : m.InStep) :
    r.2.InStep ↔ (m.rootdrive ≠ -1 → m.StaysAt s) := by
  by_cases hroot : m.rootdrive = -1
  · have hsame : r.2.rootdrive = -1 := by
      cases heffect with
      | unnamed unnamed silent => rw [silent]; exact hroot
      | selected names missing silent => rw [silent]; exact hroot
      | misread names partition magic silent => rw [silent]; exact hroot
      | mounted names partition magic => exact hroot
    exact ⟨fun _ hne => absurd hroot hne, fun _ hne => absurd hsame hne⟩
  have hstays : ∀ {x y}, m.Names s x y → ((m.rootdrive ≠ -1 → m.StaysAt s) ↔
      x = m.driveSel ∧ (m.HasPartition x y → m.superOf x y = m.su)) := by
    intro x y hnames
    refine ⟨fun hst => hst hroot x y hnames, fun hst _ x' y' hnames' => ?_⟩
    obtain ⟨rfl, rfl⟩ := hnames.unique hnames'
    exact hst
  cases heffect with
  | unnamed unnamed silent =>
    rw [silent.inStep]
    exact ⟨fun _ _ x y hnames => absurd hnames (unnamed x y), fun _ => h⟩
  | selected names missing silent =>
    rw [silent.inStep, inStep_select h hroot, hstays names]
    exact ⟨fun hx => ⟨hx, fun hp => absurd hp missing⟩, fun hst => hst.1⟩
  | misread names partition magic silent =>
    rw [silent.inStep, inStep_mountAt h hroot, hstays names]
    exact and_congr_right fun _ => ⟨fun hsu _ => hsu, fun hsu => hsu partition⟩
  | mounted names partition magic =>
    rw [inStep_mountAt h hroot, hstays names]
    exact and_congr_right fun _ => ⟨fun hsu _ => hsu, fun hsu => hsu partition⟩

/-- Listing the entries of a directory only prints. -/
theorem listEntries_sameStore {inum fuel off : ℕ} {fs : Fs} {r : Bool × Fs}
    (h : listEntries inum fuel off fs = .ok r) : SameStore fs r.2 := by
  induction fuel generalizing off fs with
  | zero =>
    cases h
    exact .refl fs
  | succ fuel ih =>
    rw [listEntries, bind_eq_ok] at h
    obtain ⟨⟨n, d, fs₁⟩, hread, h⟩ := h
    have hsame : SameStore fs fs₁ := sameStore_fsRead hread
    split at h
    · cases h
    split at h
    · cases h
      exact hsame
    · refine hsame.trans (.trans ?_ (ih h))
      split
      · exact .refl _
      · exact .printf _ _ _

/-- Without a word `ls` lists all drives. -/
theorem keepsLs_of_none {args : CString} (hword : (nextword args).1 = none) :
    m.KeepsLs (some args) ↔ ∀ x, m.lastDrive = some x → x = m.driveSel := by
  constructor
  · intro hkeeps
    exact (hkeeps args rfl).1 hword
  · rintro hlast args' ⟨⟩
    refine ⟨fun _ => hlast, fun s hs => ?_⟩
    rw [hword] at hs
    cases hs

/-- With a word `ls` goes to the drive it names. -/
theorem keepsLs_of_some {args : CString} (hword : (nextword args).1 = some s) :
    m.KeepsLs (some args) ↔ m.StaysAt s := by
  constructor
  · intro hkeeps
    exact (hkeeps args rfl).2 s hword
  · rintro hstays args' ⟨⟩
    refine ⟨fun hnone => ?_, fun s' hs => ?_⟩
    · rw [hword] at hnone
      cases hnone
    · rw [hword] at hs
      cases hs
      exact hstays

/-- `ls` leaves the recorded root in step if and only if it has not led away from it. -/
theorem ls_inStep (h : m.InStep) {fuel : ℕ} {args : Option CString} {o : Outcome}
    (hcall : ls fuel m args = .ok (o, m')) : m'.InStep ↔ (m.rootdrive ≠ -1 → m.KeepsLs args) := by
  cases args with
  | none => cases hcall
  | some args =>
    rw [ls] at hcall
    dsimp only at hcall
    cases hword : (nextword args).1 with
    | none =>
      rw [hword] at hcall
      cases hcall
      rw [keepsLs_of_none hword, ideList_inStep h]
    | some path =>
      rw [hword] at hcall
      dsimp only at hcall
      rw [keepsLs_of_some hword, ← (getXY_effect m path [108, 115]).inStep h]
      generalize getXY m path.bytes [108, 115] = r at hcall
      obtain ⟨o', m₁⟩ := r
      cases o' with
      | none =>
        cases hcall
        rfl
      | some xy =>
        dsimp only at hcall
        rw [bind_eq_ok] at hcall
        obtain ⟨⟨inum, fs⟩, hlookup, hcall⟩ := hcall
        have hsame : m₁.Silent (m₁.setFs fs) := .of_setFs (sameStore_fsLookup hlookup)
        apply Silent.inStep
        split at hcall
        · cases hcall
          exact hsame.trans (.printf _ _ _)
        · rw [bind_eq_ok] at hcall
          obtain ⟨l, hlist, hcall⟩ := hcall
          cases hcall
          exact hsame.trans (.of_setFs (listEntries_sameStore hlist))

/-- Whether a mounted partition can be booted from shows in what the lookup of `/boot` finds. -/
theorem bootable_iff (hp : m.HasPartition x y) (hmagic : (m.superOf x y).magic = fsMagic) {inum : ℕ}
    {fs : Fs} (hlookup : fsLookup (m.mounted x y) (some bootPath) = .ok (inum, fs)) :
    m.Bootable x y ↔ inum ≠ nullInum ∧ ∃ di, (fsGeti fs inum).1 = some di ∧ di.type = tDir ∧
      di.size ≠ 0 := by
  constructor
  · rintro ⟨-, -, inum', fs', hlookup', hrest⟩
    rw [hlookup] at hlookup'
    cases hlookup'
    exact hrest
  · intro hrest
    exact ⟨hp, hmagic, inum, fs, hlookup, hrest⟩

/-- The end of `set` records the root when it can be booted from, and only prints when it cannot. -/
theorem setRoot_cases (hp : m.HasPartition x y) (hmagic : (m.superOf x y).magic = fsMagic)
    (hcall : setRoot (m.mountAt x y true) x y = .ok m') :
    m.Bootable x y ∧ m'.InStep ∨ ¬m.Bootable x y ∧ (m.mountAt x y true).Silent m' := by
  rw [setRoot, bind_eq_ok] at hcall
  obtain ⟨⟨inum, fs⟩, hlookup, hcall⟩ := hcall
  have hfs : (m.mountAt x y true).fs = m.mounted x y := rfl
  have hsame := sameStore_fsLookup hlookup
  rw [hfs] at hlookup
  have hsilent : (m.mountAt x y true).Silent ((m.mountAt x y true).setFs fs) := .of_setFs hsame
  rw [bootable_iff hp hmagic hlookup]
  dsimp only at hcall
  rw [fs_setFs] at hcall
  split at hcall
  · rename_i hinum
    cases hcall
    exact .inr ⟨fun hb => hb.1 hinum, hsilent.trans (.printf _ _ _)⟩
  rename_i hinum
  have hgeti := sameStore_readInode fs inum
  rw [← fsGeti] at hgeti
  split at hcall
  · cases hcall
  rename_i di fs₁ hdi
  rw [hdi] at hgeti ⊢
  have hsilent₁ : (m.mountAt x y true).Silent (((m.mountAt x y true).setFs fs).setFs fs₁) :=
    hsilent.trans (.of_setFs (by rwa [fs_setFs]))
  dsimp only at hcall ⊢
  split at hcall
  · rename_i htype
    cases hcall
    refine .inr ⟨?_, hsilent₁.trans (.printf _ _ _)⟩
    rintro ⟨-, di', hdi', htype', -⟩
    cases hdi'
    exact htype htype'
  rename_i htype
  split at hcall
  · rename_i hsize
    cases hcall
    refine .inr ⟨?_, hsilent₁.trans (.printf _ _ _)⟩
    rintro ⟨-, di', hdi', -, hsize'⟩
    cases hdi'
    exact hsize' hsize
  · rename_i hsize
    cases hcall
    refine .inl ⟨⟨hinum, di, rfl, not_not.mp htype, hsize⟩, ?_⟩
    rw [hsilent₁]
    exact fun _ => ⟨rfl, rfl⟩

/-- With its arguments parsed, `set root` leaves the recorded root in step if and only if it
succeeds or has not led away from it. -/
theorem setValue_inStep (h : m.InStep) {value : CString} (hcall : setValue m value = .ok m') :
    m'.InStep ↔ (m.rootdrive ≠ -1 → m.StaysAt value ∨ m.Accepts value) := by
  rw [setValue] at hcall
  have heffect := getXY_effect m value [115, 101, 116]
  have hafter := heffect.inStep h
  generalize getXY m value.bytes [115, 101, 116] = r at hcall heffect hafter
  have hrefused : (∀ x y, m.Names value x y → ¬m.Bootable x y) → (m'.InStep ↔ r.2.InStep) →
      (m'.InStep ↔ (m.rootdrive ≠ -1 → m.StaysAt value ∨ m.Accepts value)) := by
    intro hnot hsame
    rw [hsame, hafter]
    refine imp_congr_right fun _ => ⟨.inl, fun hor => hor.resolve_right ?_⟩
    rintro ⟨x, y, hnames, hboot⟩
    exact hnot x y hnames hboot
  cases heffect with
  | unnamed unnamed silent =>
    cases hcall
    exact hrefused (fun x y hnames _ => unnamed x y hnames) .rfl
  | selected names missing silent =>
    cases hcall
    refine hrefused (fun x y hnames hboot => missing ?_) .rfl
    obtain ⟨rfl, rfl⟩ := hnames.unique names
    exact hboot.1
  | misread names partition magic silent =>
    cases hcall
    refine hrefused (fun x y hnames hboot => magic ?_) .rfl
    obtain ⟨rfl, rfl⟩ := hnames.unique names
    exact hboot.2.1
  | mounted names partition magic =>
    rcases setRoot_cases partition magic hcall with ⟨hboot, hstep⟩ | ⟨hnot, hsilent⟩
    · exact ⟨fun _ _ => .inr ⟨_, _, names, hboot⟩, fun _ => hstep⟩
    · refine hrefused (fun x y hnames hboot => hnot ?_) hsilent.inStep
      obtain ⟨rfl, rfl⟩ := hnames.unique names
      exact hboot

/-- `set` leaves the recorded root in step if and only if it succeeds or has not led away from it. -/
theorem set_inStep (h : m.InStep) {args : Option CString} (hcall : set m args = .ok m') :
    m'.InStep ↔ (m.rootdrive ≠ -1 → m.KeepsSet args) := by
  have hprinted : m.KeepsSet args → m.Silent m' → (m'.InStep ↔ (m.rootdrive ≠ -1 → m.KeepsSet args)) :=
    fun hkeeps hsilent => ⟨fun _ _ => hkeeps, fun _ => hsilent.inStep.mpr h⟩
  cases args with
  | none => cases hcall
  | some args =>
    rw [set] at hcall
    split at hcall
    · rename_i hname
      cases hcall
      refine hprinted ?_ (.printf _ _ _)
      rintro args' name rest s ⟨⟩ hname'
      simp [hname] at hname'
    · cases hcall
    rename_i name rest hname
    split at hcall
    · rename_i hvalue
      cases hcall
      refine hprinted ?_ (.printf _ _ _)
      rintro args' name' rest' s ⟨⟩ hname' hvalue'
      rw [hname] at hname'
      cases hname'
      rw [hvalue] at hvalue'
      cases hvalue'
    rename_i value hvalue
    split at hcall
    · rename_i hroot
      rw [setValue_inStep h hcall]
      refine imp_congr_right fun _ =>
        ⟨?_, fun hkeeps => hkeeps args name rest value rfl hname hvalue hroot⟩
      rintro hor args' name' rest' s ⟨⟩ hname' hvalue' -
      rw [hname] at hname'
      cases hname'
      rw [hvalue] at hvalue'
      cases hvalue'
      exact hor
    · rename_i hroot
      cases hcall
      refine hprinted ?_ (.printf _ _ _)
      rintro args' name' rest' s ⟨⟩ hname' - hroot'
      rw [hname] at hname'
      cases hname'
      exact absurd hroot' hroot

/-- A command line leaves the recorded root in step if and only if it meets the condition. -/
theorem processCommand_inStep (h : m.InStep) {fuel : ℕ} {cmd : CString} {o : Outcome}
    (hcall : processCommand fuel cmd m = .ok (o, m')) : m'.InStep ↔ m.Keeps cmd := by
  have hprinted : m.Keeps cmd → m.Silent m' → (m'.InStep ↔ m.Keeps cmd) :=
    fun hkeeps hsilent => ⟨fun _ => hkeeps, fun _ => hsilent.inStep.mpr h⟩
  rw [processCommand] at hcall
  split at hcall
  · rename_i hword
    cases hcall
    refine hprinted ?_ (.refl m)
    intro _ this hthis
    rw [hword] at hthis
    cases hthis
  rename_i this next hword
  have hkeeps : m.Keeps cmd ↔ (m.rootdrive ≠ -1 →
      (strncmp [108, 115] this.bytes 2 = 0 → m.KeepsLs next) ∧
      (strncmp [108, 115] this.bytes 2 ≠ 0 → strncmp [98, 111, 111, 116] this.bytes 4 ≠ 0 →
        strncmp [115, 101, 116] this.bytes 3 = 0 → m.KeepsSet next)) := by
    rw [Machine.Keeps, hword]
    refine imp_congr_right fun _ => ⟨fun hall => hall this rfl, fun hall this' hthis => ?_⟩
    cases hthis
    exact hall
  rw [hkeeps] at hprinted ⊢
  split at hcall
  · rename_i hls
    rw [ls_inStep h hcall]
    exact imp_congr_right fun _ => ⟨fun hk => ⟨fun _ => hk, fun hne => absurd hls hne⟩,
      fun hall => hall.1 hls⟩
  rename_i hls
  split at hcall
  · rename_i hboot
    refine hprinted (fun _ => ⟨fun heq => absurd heq hls, fun _ hne => absurd hboot hne⟩) ?_
    rw [boot] at hcall
    split at hcall
    · cases hcall
      exact .printf _ _ _
    · cases hcall
      exact .refl m
  rename_i hboot
  split at hcall
  · rename_i hset
    rw [bind_eq_ok] at hcall
    obtain ⟨m₁, hcall, hret⟩ := hcall
    cases hret
    rw [set_inStep h hcall]
    exact imp_congr_right fun _ => ⟨fun hk => ⟨fun heq => absurd heq hls, fun _ _ _ => hk⟩,
      fun hall => hall.2 hls hboot hset⟩
  · rename_i hset
    cases hcall
    exact hprinted (fun _ => ⟨fun heq => absurd heq hls, fun _ _ heq => absurd heq hset⟩) (.refl m)

/-- `boot` loads a system only with a root recorded, and changes nothing before. -/
theorem processCommand_boots {fuel : ℕ} {cmd : CString}
    (hcall : processCommand fuel cmd m = .ok (.boots, m')) :
    m' = m ∧ m.rootdrive ≠ -1 := by
  have hls : ∀ args, ls fuel m args ≠ .ok (.boots, m') := by
    intro args hcall
    cases args with
    | none => cases hcall
    | some args =>
      rw [ls] at hcall
      dsimp only at hcall
      split at hcall
      · cases hcall
      split at hcall
      · cases hcall
      rw [bind_eq_ok] at hcall
      obtain ⟨r, -, hcall⟩ := hcall
      split at hcall
      · cases hcall
      rw [bind_eq_ok] at hcall
      obtain ⟨l, -, hcall⟩ := hcall
      split at hcall <;> cases hcall
  rw [processCommand] at hcall
  split at hcall
  · cases hcall
  split at hcall
  · exact absurd hcall (hls _)
  split at hcall
  · rw [boot] at hcall
    split at hcall
    · cases hcall
    · rename_i hroot
      cases hcall
      exact ⟨rfl, hroot⟩
  split at hcall
  · rw [bind_eq_ok] at hcall
    obtain ⟨m₁, -, hret⟩ := hcall
    cases hret
  · cases hcall

/-- Command lines that meet the condition keep the recorded root in step. In every state reached
`boot` reads the recorded partition, and a next line keeps the root in step if and only if it meets
the condition. -/
theorem root_in_step {fuel : ℕ} {t : List (CString × Outcome)} (hroot : m.rootdrive = -1)
    (hrun : Run (processCommand fuel) (fun _ m cmd => m.Keeps cmd) m t m') :
    m'.InStep ∧
    (∀ cmd m'', processCommand fuel cmd m' = .ok (.boots, m'') → ∃ x : ℕ, m''.rootdrive = x ∧
      m''.fs.disk = (m''.drives x).disk ∧ m''.fs.su = m''.superOf x m''.rootpartition.toNat) ∧
    ∀ cmd o m'', processCommand fuel cmd m' = .ok (o, m'') → (m''.InStep ↔ m'.Keeps cmd) := by
  have hstep : m'.InStep := by
    refine hrun.preserves (I := Machine.InStep) ?_ fun hne => absurd hroot hne
    intro t m₁ cmd o m₂ hbefore hkeeps hcall
    exact (processCommand_inStep hbefore hcall).mpr hkeeps
  refine ⟨hstep, fun cmd m'' hcall => ?_, fun cmd o m'' hcall => processCommand_inStep hstep hcall⟩
  obtain ⟨rfl, hne⟩ := processCommand_boots hcall
  obtain ⟨hdrive, hsu⟩ := hstep hne
  exact ⟨m''.driveSel, hdrive, rfl, hsu⟩

/-! ## A machine with three drives -/

/-- The only partition of the second drive. -/
def bootPartition : Partition := ⟨1, 65⟩

/-- A directory of one block. -/
def smallDir (b size linkcnt : ℕ) : Dinode :=
  { Dinode.zero with type := tDir, linkcnt := linkcnt, size := size, ptrs := b :: List.replicate 12 0 }

/-- The block of a directory with one entry. -/
def entryBlock (de : Dirent) : Block := .ofFn fun i => if i < 16 then de.bytes i else 0

/-- A disk with an empty file `/boot/a`. -/
def bootDisk : Disk := fun n =>
  if n = 1 then (newSuper bootPartition).toBlock
  else if n = 32 then
    let b := Block.zero.setInode nullInum { Dinode.zero with type := tDir }
    let b := (b.setInode rootInum (smallDir 58 16 0)).setInode 2 (smallDir 59 16 1)
    b.setInode 3 { Dinode.zero with type := tReg, linkcnt := 1 }
  else if n = 57 then .ofFn fun i => if i = 0 then 3 else 0
  else if n = 58 then entryBlock ⟨2, strncpy [98, 111, 111, 116] maxName⟩
  else if n = 59 then entryBlock ⟨3, strncpy [97] maxName⟩
  else .zero

/-- Three drives, the second of them with a system, before the first command. -/
def threeDrives : Machine where
  rootdrive := -1
  rootpartition := -1
  drives := fun x =>
    if x = 1 then ⟨true, true, fun y => if y = 0 then bootPartition else ⟨0, 0⟩, bootDisk⟩
    else ⟨x < 3, false, fun _ => ⟨0, 0⟩, fun _ => .zero⟩
  driveSel := 0
  init := false
  su := Block.zero.su
  printed := []

/-- The line `set root=(hd1,0)`. -/
def setLine : CString := ⟨[115, 101, 116, 32, 114, 111, 111, 116, 61, 40, 104, 100, 49, 44, 48,
  41], by decide⟩

/-- The line `ls` with a blank behind it. -/
def lsLine : CString := ⟨[108, 115, 32], by decide⟩

/-- Listing the drives after a successful `set` leaves the last drive selected, where the assertion
of `boot` that there is a `/boot` fails. -/
theorem not_root_in_step : threeDrives.rootdrive = -1 ∧ ∃ t m,
    Run (processCommand 0) (fun _ _ cmd => cmd ∈ [setLine, lsLine]) threeDrives t m ∧
      m.rootdrive = 1 ∧ m.driveSel = 2 ∧ ¬m.InStep ∧
      ∃ fs, fsLookup m.fs (some bootPath) = .ok (nullInum, fs) := by
  have hdrives : (do
      let r ← execAll (processCommand 0) [setLine, lsLine] threeDrives
      let l ← fsLookup r.2.fs (some bootPath)
      .ok (r.2.rootdrive, r.2.driveSel, l.1)) = (.ok (1, 2, nullInum) : Except Fault (ℤ × ℕ × ℕ)) := by
    decide +kernel
  rw [bind_eq_ok] at hdrives
  obtain ⟨⟨t, m⟩, hexec, hdrives⟩ := hdrives
  rw [bind_eq_ok] at hdrives
  obtain ⟨⟨inum, fs⟩, hlookup, hdrives⟩ := hdrives
  obtain ⟨hroot, hsel, rfl⟩ : m.rootdrive = 1 ∧ m.driveSel = 2 ∧ inum = nullInum := by
    simpa using hdrives
  refine ⟨rfl, t, m, Run.of_execAll (fun cmd hcmd => hcmd) hexec, hroot, hsel, fun hstep => ?_, fs,
    hlookup⟩
  have hdrive := (hstep (by rw [hroot]; decide)).1
  rw [hroot, hsel] at hdrive
  cases hdrive

/-- The root is in step after it has been set. -/
theorem root_in_step_set : ∃ o m, processCommand 0 setLine threeDrives = .ok (o, m) ∧ m.rootdrive = 1 ∧
    m.InStep ∧
    (∀ cmd m', processCommand 0 cmd m = .ok (.boots, m') → ∃ x : ℕ, m'.rootdrive = x ∧
      m'.fs.disk = (m'.drives x).disk ∧ m'.fs.su = m'.superOf x m'.rootpartition.toNat) ∧
    ∀ cmd o m', processCommand 0 cmd m = .ok (o, m') → (m'.InStep ↔ m.Keeps cmd) := by
  have hset : (do
      let r ← processCommand 0 setLine threeDrives
      .ok r.2.rootdrive) = (.ok 1 : Except Fault ℤ) := by
    decide +kernel
  rw [bind_eq_ok] at hset
  obtain ⟨⟨o, m⟩, hcall, hroot⟩ := hset
  have hkeeps : threeDrives.Keeps setLine := fun hne => absurd rfl hne
  exact ⟨o, m, hcall, Except.ok.inj hroot, root_in_step rfl (.call .start hkeeps hcall)⟩

end Hobby386
