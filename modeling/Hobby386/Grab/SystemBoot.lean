import Hobby386.Grab.BootMenu
import Hobby386.Mkfs.Partitions

/-!
# From the image to the loaded system

The whole of `boot`, and the start of `shell`, which sets the root to the first partition of the
first drive and boots from it. What `mkfs` has migrated to `/boot` in a session is what the shell
loads when the keys have led to its row of the menu.
-/

namespace Hobby386

open Runs

/-! ## The whole command -/

/-- The loop of `boot` over the keys that are pressed: the menu after Enter, `none` when no Enter
has come. -/
def menuKeys : List KeyEvent → Menu → Except Fault (Option Menu)
  | [], _ => .ok none
  | e :: es, m => do
    let r ← menuKey e m
    if r.1 then .ok (some r.2) else menuKeys es r.2

/-- How `boot` comes to an end, before it jumps to the system or without it. -/
inductive BootEnd
  | noRoot
  | waiting
  | loaded (mem : Memory) (vga : Vga)

/-- The messages of `boot`. A name without a terminator runs out of the entry. -/
def bootMessages (v : Vga) (d : Dirent) : Except Fault Vga :=
  if 0 ∈ d.name then do
    let v ← putchars v ("booting ".toUTF8.toList ++ cstr d.name ++ "...\n".toUTF8.toList)
    putchars v "loading system at 0x100000\n".toUTF8.toList
  else .error .outOfBounds

/-- `boot` up to the jump to the system, with its loop over the keys. It waits when the fuel is
spent or the loop has not come to an end. -/
def bootWith (loop : Menu → Except Fault (Option Menu)) (fuel : ℕ) (mem : Memory) (v : Vga)
    (m : Machine) :
    Except Fault (BootEnd × Machine) :=
  if m.rootdrive = -1 then .ok (.noRoot, m.printf "cat: root hasn't been set\n" [])
  else do
    let r ← bootMenu fuel m.fs v
    let m := m.setFs r.2
    match r.1 with
    | none => .ok (.waiting, m)
    | some (inum, menu) => do
      match ← loop menu with
      | none => .ok (.waiting, m)
      | some menu => do
        let r ← fsRead m.fs inum (fun _ => 0) direntSize (u32 (bits32 menu.row * direntSize))
        if r.1 ≠ direntSize then .error .panic
        else do
          let d := Dirent.ofBytes r.2.1 0
          let v ← bootMessages menu.vga d
          let l ← loadBlocks d.inum fuel loadAddress 0 mem r.2.2
          match l.1 with
          | none => .ok (.waiting, m.setFs l.2)
          | some mem => .ok (.loaded mem v, m.setFs l.2)

/-- `boot`, with the keys that are pressed. -/
def bootSystem (fuel : ℕ) (keys : List KeyEvent) : Memory → Vga → Machine →
    Except Fault (BootEnd × Machine) :=
  bootWith (menuKeys keys) fuel

/-- What a key does to the number of the row, in a menu of `n` rows. -/
def moveRow (n row : ℕ) (e : KeyEvent) : ℕ :=
  if e.data = keyUArrow then row - 1 else if e.data = keyDArrow then min (row + 1) (n - 1) else row

section Keys

variable {v : Vga} {n : ℕ} {m m' : Menu} {e : KeyEvent}

/-- A key other than Enter moves the row, and the loop goes on. -/
theorem Menu.Follows.row_key (h : m.Follows v n) (hn : n ≤ 25) (hkey : e.data ≠ 10) :
    ∃ m', menuKey e m = .ok (false, m') ∧ m'.Follows v n ∧ m'.row.toNat = moveRow n m.row.toNat e := by
  obtain ⟨⟨b, m'⟩, hcall⟩ := h.key_returns hn e
  have hfollows := h.key hkey hcall
  have hcnt := h.cnt
  have hnonneg := h.row_nonneg
  have hlt := h.row_lt
  rw [menuKey] at hcall
  rw [moveRow]
  split at hcall
  · rename_i hup
    simp only [bind_eq_ok] at hcall
    obtain ⟨v₁, hold, v₂, hnew, hret⟩ := hcall
    cases hret
    refine ⟨_, by rw [menuKey, if_pos hup, hold, ok_bind, hnew, ok_bind], hfollows, ?_⟩
    rw [if_pos hup.1]
    dsimp only
    omega
  · rename_i hup
    split at hcall
    · rename_i hdown
      simp only [bind_eq_ok] at hcall
      obtain ⟨v₁, hold, v₂, hnew, hret⟩ := hcall
      cases hret
      refine ⟨_, by rw [menuKey, if_neg hup, if_pos hdown, hold, ok_bind, hnew, ok_bind], hfollows, ?_⟩
      have hother : e.data ≠ keyUArrow := by
        rw [hdown.1]
        decide
      rw [if_neg hother, if_pos hdown.1]
      dsimp only
      omega
    · rename_i hdown
      cases hcall
      refine ⟨m, by rw [menuKey, if_neg hup, if_neg hdown, if_neg hkey], h, ?_⟩
      split
      · rename_i hdata
        have hzero : m.row = 0 := by
          by_contra hne
          exact hup ⟨hdata, hne⟩
        omega
      · split
        · rename_i hdata
          have hlast : ¬m.row < m.cnt - 1 := fun hrow => hdown ⟨hdata, hrow⟩
          omega
        · rfl

/-- Enter leaves the loop with the row as it is, and clears the screen. -/
theorem Menu.Follows.enter (h : m.Follows v n) (hkey : e.data = 10) :
    ∃ m', menuKey e m = .ok (true, m') ∧ m'.row = m.row ∧ (vgaGetCursor m'.vga).toNat < screenCells := by
  obtain ⟨v₁, hold⟩ := vgaSetColor_returns m.vga ⟨h.row_nonneg, h.onScreen⟩ blackWhite
  obtain ⟨v₂, hreset, htyping, -⟩ := vgaReset_eq v₁
  have hup : ¬(e.data = keyUArrow ∧ m.row ≠ 0) := by
    rw [hkey]
    exact fun hand => absurd hand.1 (by decide)
  have hdown : ¬(e.data = keyDArrow ∧ m.row < m.cnt - 1) := by
    rw [hkey]
    exact fun hand => absurd hand.1 (by decide)
  refine ⟨{ m with vga := v₂ }, by
    rw [menuKey, if_neg hup, if_neg hdown, if_pos hkey, hold, ok_bind, hreset, ok_bind], rfl, ?_⟩
  dsimp only
  rw [htyping.cursor]
  decide

/-- The loop ends with the row that the keys have led to. -/
theorem menuKeys_row {keys : List KeyEvent} (rest : List KeyEvent) (h : m.Follows v n) (hn : n ≤ 25)
    (hkeys : ∀ e ∈ keys, e.data ≠ 10) (henter : e.data = 10) :
    ∃ m', menuKeys (keys ++ e :: rest) m = .ok (some m') ∧
      m'.row = (keys.foldl (moveRow n) m.row.toNat : ℕ) ∧ m'.row < n ∧
      (vgaGetCursor m'.vga).toNat < screenCells := by
  induction keys generalizing m with
  | nil =>
    obtain ⟨m', hcall, hrow, hcursor⟩ := h.enter henter
    have hnonneg := h.row_nonneg
    refine ⟨m', by rw [List.nil_append, menuKeys, hcall, ok_bind, if_pos rfl], ?_, hrow ▸ h.row_lt,
      hcursor⟩
    rw [hrow, List.foldl_nil]
    omega
  | cons k keys ih =>
    rw [List.forall_mem_cons] at hkeys
    obtain ⟨m₁, hcall, hfollows, hrow⟩ := h.row_key hn hkeys.1
    obtain ⟨m', hrest, hrow', hend⟩ := ih hfollows hkeys.2
    refine ⟨m', ?_, ?_, hend⟩
    · rw [List.cons_append, menuKeys, hcall, ok_bind, if_neg Bool.false_ne_true, hrest]
    · rw [hrow', hrow, List.foldl_cons]

end Keys

/-! ## Loading the system of a row -/

section Load

variable {m : Machine} {inum : ℕ} {v : Vga} {e : KeyEvent} {D : List UInt8}

/-- Terminated names are printed. -/
theorem printNames_returns {des : List Dirent} (hcursor : (vgaGetCursor v).toNat < screenCells)
    (hterm : ∀ de ∈ des, 0 ∈ de.name) : ∃ v', printNames v des = .ok v' := by
  induction des generalizing v with
  | nil => exact ⟨v, rfl⟩
  | cons d des ih =>
    rw [List.forall_mem_cons] at hterm
    rw [printNames, printEntry, if_pos hterm.1]
    split
    · exact ih hcursor hterm.2
    · obtain ⟨v₁, hputs, hcursor₁⟩ := putchars_returns hcursor (cstr d.name ++ [10])
      rw [hputs]
      exact ih hcursor₁ hterm.2

/-- The messages of `boot` can be printed. -/
theorem bootMessages_returns {d : Dirent} (hcursor : (vgaGetCursor v).toNat < screenCells)
    (hterm : 0 ∈ d.name) :
    ∃ v', bootMessages v d = .ok v' := by
  obtain ⟨v₁, hfirst, hcursor₁⟩ :=
    putchars_returns hcursor ("booting ".toUTF8.toList ++ cstr d.name ++ "...\n".toUTF8.toList)
  obtain ⟨v₂, hlast, -⟩ := putchars_returns hcursor₁ "loading system at 0x100000\n".toUTF8.toList
  exact ⟨v₂, by rw [bootMessages, if_pos hterm, hfirst, ok_bind, hlast]⟩

/-- Nothing has happened to the disk. -/
theorem Machine.setFs_fs (m : Machine) : m.setFs m.fs = m := by
  simp only [setFs, Machine.fs, Function.update_eq_self]

/-- The file of the row that the keys have led to is loaded, and nothing else of the machine changes. -/
theorem bootSystem_loads (hroot : m.rootdrive ≠ -1) (hwf : WellFormed m.fs) (hdir : BootDir m.fs inum)
    (hcount : (m.fs.dirents inum).length ≤ 25) (hterm : ∀ de ∈ m.fs.dirents inum, 0 ∈ de.name)
    {keys rest : List KeyEvent} (hkeys : ∀ e ∈ keys, e.data ≠ 10) (henter : e.data = 10)
    (hholds : Holds m.fs (m.fs.dirent inum (keys.foldl (moveRow (m.fs.dirents inum).length) 0)).inum D)
    (v : Vga) (mem : Memory) : ∃ vga calls, ∀ fuel ≥ calls, bootSystem fuel (keys ++ e :: rest) mem v m =
      .ok (.loaded (memcpy mem loadAddress (.ofList D) 0 D.length) vga, m) := by
  obtain ⟨v₀, hreset, htyping, -⟩ := vgaReset_eq v
  have hcursor₀ : (vgaGetCursor v₀).toNat < screenCells := by
    rw [htyping.cursor]
    decide
  obtain ⟨fs₁, hlookup⟩ := hdir.lookup
  obtain rfl : fs₁ = m.fs := fsLookup_keeps hlookup
  obtain ⟨v₁, hprint⟩ := printNames_returns hcursor₀ hterm
  obtain ⟨v₂, hcolor⟩ := vgaSetColor_returns v₁ (show (0 : ℤ) ≤ 0 ∧ (0 : ℤ) < 25 by decide) blueWhite
  obtain ⟨menu, hloop, hrow, hlt, hcursor⟩ :=
    menuKeys_row rest (follows_start hdir.length_pos hcolor) hcount hkeys henter
  rw [Int.toNat_zero] at hrow
  generalize keys.foldl (moveRow (m.fs.dirents inum).length) 0 = row at hrow hholds
  rw [hrow] at hlt
  have hrange : row < (m.fs.dirents inum).length := Int.ofNat_lt.mp hlt
  have hentry : row < (m.fs.dinode inum).size / 16 := by rwa [length_dirents] at hrange
  have hsize := hdir.dir.size_le
  simp only [maxBytes, maxBlocks] at hsize
  obtain ⟨mem', hread, hde⟩ := fsRead_dirent hdir.init hdir.layout hdir.lt hdir.dir hentry fun _ => 0
  have hoff : u32 (bits32 menu.row * direntSize) = 16 * row := by
    rw [hrow, bits32_natCast (by omega), u32_of_lt (by simp only [direntSize]; omega)]
    exact Nat.mul_comm _ _
  have hname : 0 ∈ (m.fs.dirent inum row).name := by
    rw [← getElem_dirents hrange]
    exact hterm _ (List.getElem_mem hrange)
  obtain ⟨vga, hmessages⟩ := bootMessages_returns hcursor hname
  have hempty : memcpy mem loadAddress (.ofList D) 0 0 = mem := by
    funext a
    simp only [memcpy]
    rw [if_neg (by omega)]
  refine ⟨vga, max ((m.fs.dirents inum).length + 1) (D.length + 1), fun fuel hfuel => ?_⟩
  have hmenu := hdir.bootMenu_eq hlookup hreset (show _ < fuel by omega)
  rw [hprint, ok_bind, hcolor, ok_bind] at hmenu
  have hload := hholds.loadBlocks hwf mem (show D.length - 0 < fuel by omega) (Nat.zero_le _)
    (fun _ => show loadAddress = loadAddress + 0 from rfl)
  rw [hempty] at hload
  rw [bootSystem, bootWith, if_neg hroot, hmenu, ok_bind]
  dsimp only
  rw [m.setFs_fs, hloop, ok_bind]
  dsimp only
  rw [hoff, hread, ok_bind, if_neg (not_not_intro rfl)]
  dsimp only
  rw [hde, hmessages, ok_bind, hload, ok_bind]
  dsimp only
  rw [m.setFs_fs]

end Load

/-! ## Setting the root -/

section Root

variable {m : Machine} {fs : Fs} {p : Partition} {inum n : ℕ}

/-- The first partition of the first drive is `p`, with the blocks of a mounted file system on it. -/
structure Machine.Carries (m : Machine) (p : Partition) (fs : Fs) : Prop where
  exist : (m.drives 0).exist = true
  msdos : (m.drives 0).msdos = true
  partition : (m.drives 0).partitions 0 = p
  disk : (m.drives 0).disk = fs.disk

/-- Partition `y` of drive `x` is `p`, and the drive has a file system there. -/
structure Machine.CarriesAt (m : Machine) (x y : Fin 4) (p : Partition) (fs : Fs) : Prop where
  exist : (m.drives x).exist = true
  msdos : (m.drives x).msdos = true
  partition : (m.drives x).partitions y = p
  carried : Mkfs.Carried p fs (m.drives x).disk

/-- The machine after a successful `set` to partition `y` of drive `x`. -/
def Machine.rootedAt (m : Machine) (x y : Fin 4) : Machine :=
  { m.mountAt x y true with rootdrive := (x : ℕ), rootpartition := (y : ℕ) }

/-- The name "(hdX,Y)". -/
def partitionName (x y : Fin 4) : CString :=
  ⟨[40, 104, 100, .ofNat (48 + x), 44, .ofNat (48 + y), 41], by revert x y; decide⟩

/-- The argument of `set` that names partition `y` of drive `x`. -/
def rootArgAt (x y : Fin 4) : CString :=
  ⟨[114, 111, 111, 116, 61, 40, 104, 100, .ofNat (48 + x), 44, .ofNat (48 + y),
    41], by revert x y; decide⟩

/-- A machine that carries a file system carries it in the first partition of the first drive. -/
theorem Machine.Carries.at (h : m.Carries p fs) (himage : Mkfs.Image p fs) : m.CarriesAt 0 0 p fs :=
  ⟨h.exist, h.msdos, h.partition, himage, fun _ _ => by rw [← h.disk]; rfl⟩

section At

variable {x y : Fin 4} (h : m.CarriesAt x y p fs) (hp : p.Usable)

include h hp

/-- The superblock that the shell reads. -/
theorem Machine.CarriesAt.super : m.superOf x y = fs.su := by
  have hlow := hp.nonempty
  rw [superOf, h.partition, h.carried.blocks _ ⟨le_rfl, by omega⟩, h.carried.image.mounted.super]

/-- Mounted, the file system of the drive is the one that has been put on it. -/
theorem Machine.CarriesAt.mounted {W : ℕ → Prop} :
    Mkfs.Image p (m.rootedAt x y).fs ∧ FilesKept W fs (m.rootedAt x y).fs ∧
      SameInside fs (m.rootedAt x y).fs := by
  have hinit : (m.rootedAt x y).fs.init = fs.init := h.carried.image.mounted.init.symm
  have hsu : (m.rootedAt x y).fs.su = fs.su := h.super hp
  obtain ⟨himage, hkept⟩ := h.carried.image.congr hp hinit hsu h.carried.blocks
  refine ⟨himage, hkept, hinit, hsu, fun b hb => h.carried.blocks b ?_⟩
  by_contra hout
  exact hb (h.carried.image.outside hp hout)

/-- `set` sets the root when the partition holds a file system with a directory `/boot` that is not
empty. -/
theorem Machine.CarriesAt.set_root (hdir : BootDir (m.rootedAt x y).fs inum)
    (htype : ((m.rootedAt x y).fs.dinode inum).type = tDir) :
    set m (some (rootArgAt x y)) = .ok (m.rootedAt x y) := by
  have hlow := hp.nonempty
  have hmagic : (m.superOf x y).magic = fsMagic := by rw [h.super hp, h.carried.image.mounted.magic]
  have hpart : m.HasPartition x y := ⟨h.msdos, by rw [h.partition]; omega⟩
  have hname : ∀ x y : Fin 4, nextword (rootArgAt x y).blankEquals =
      (some ⟨[114, 111, 111, 116], by decide⟩, some (partitionName x y)) := by decide
  have hvalue : ∀ x y : Fin 4, (nextword (partitionName x y)).1 = some (partitionName x y) := by decide
  have hform : ∀ x y : Fin 4, FormXY (partitionName x y).bytes ∧ digit (partitionName x y).bytes 3 = x ∧
      digit (partitionName x y).bytes 5 = y := by decide
  obtain ⟨hxy, hdrive, hpartition⟩ := hform x y
  have hnames : m.Names (partitionName x y) x y := ⟨hxy, hdrive, hpartition, x.isLt, y.isLt, h.exist⟩
  obtain ⟨fs₁, hlookup⟩ := hdir.lookup
  obtain rfl : fs₁ = (m.rootedAt x y).fs := fsLookup_keeps hlookup
  have hfs : (m.rootedAt x y).fs = (m.mountAt x y true).fs := rfl
  rw [hfs] at hlookup
  have hgeti : fsGeti (m.mountAt x y true).fs inum =
      (some ((m.mountAt x y true).fs.dinode inum), (m.mountAt x y true).fs) :=
    readInode_eq hdir.init hdir.layout hdir.lt
  have hsetRoot : setRoot (m.mountAt x y true) x y = .ok (m.rootedAt x y) := by
    rw [setRoot, hlookup, ok_bind]
    dsimp only
    rw [setFs_fs, if_neg hdir.used, hgeti]
    dsimp only
    rw [setFs_fs, ← hfs, if_neg (not_not_intro htype), if_neg hdir.size_ne]
    rfl
  have hgetXY : getXY m (partitionName x y).bytes [115, 101, 116] =
      (some ((x : ℕ), (y : ℕ)), m.mountAt x y true) := by
    have heffect := getXY_effect m (partitionName x y) [115, 101, 116]
    generalize getXY m _ [115, 101, 116] = r at heffect ⊢
    cases heffect with
    | unnamed unnamed silent => exact absurd hnames (unnamed x y)
    | selected names missing silent =>
      obtain ⟨rfl, rfl⟩ := hnames.unique names
      exact absurd hpart missing
    | misread names partition magic silent =>
      obtain ⟨rfl, rfl⟩ := hnames.unique names
      exact absurd hmagic magic
    | mounted names partition magic =>
      obtain ⟨rfl, rfl⟩ := hnames.unique names
      rfl
  rw [set, hname]
  dsimp only
  rw [hvalue]
  dsimp only
  rw [if_pos (by decide), setValue, hgetXY]
  exact hsetRoot

end At

/-! ## The row of a file -/

/-- A path into `/boot` leads through the directory `/boot`. -/
theorem Sound.boot_child (hsound : Sound fs) {dst : CString} {name : List UInt8}
    (hdst : dst.bytes = bootPath.bytes ++ slash :: name) (hname : name ≠ []) (hfree : slash ∉ name)
    (hlookup : fsLookup fs (some dst) = .ok (n, fs)) (hn : n ≠ nullInum) :
    ∃ inum, inum ≠ nullInum ∧ inum < 200 ∧ fsLookup fs (some bootPath) = .ok (inum, fs) ∧
      fs.child inum name = n := by
  have hwf := hsound.wellFormed
  have hboot : bootPath.bytes = slash :: [98, 111, 111, 116] := rfl
  obtain ⟨tail, hbytes, -, -, hresolve⟩ := resolve_of_fsLookup hwf.init hwf.layout hsound.dirs hlookup hn
  have htail : tail = [98, 111, 111, 116, slash] ++ (name ++ []) := by
    rw [hdst, hboot] at hbytes
    simpa using (List.cons.inj hbytes).2.symm
  have hfirst : pathNames [98, 111, 111, 116, slash] = [[98, 111, 111, 116]] := by
    have happend : pathNames ([] ++ ([98, 111, 111, 116] ++ [slash])) =
        pathNames [] ++ [[98, 111, 111, 116]] :=
      pathNames_append (.inl rfl) (by decide) (by decide) (by simp)
    simpa using happend
  have hdir : pathNames [98, 111, 111, 116] = [[98, 111, 111, 116]] := by
    have happend : pathNames ([] ++ ([98, 111, 111, 116] ++ [])) =
        pathNames [] ++ [[98, 111, 111, 116]] :=
      pathNames_append (.inl rfl) (by decide) (by decide) (by simp)
    simpa using happend
  have hnames : pathNames tail = [[98, 111, 111, 116], name] := by
    rw [htail, pathNames_append (.inr rfl) hname hfree (by simp), hfirst]
    rfl
  have hshort : bootPath.ShortNames := shortNames_of_length (by decide)
  have hlookupBoot := fsLookup_eq hwf.init hwf.layout hsound.dirs hboot (by decide) hshort
  rw [hdir, Fs.resolve, Fs.resolve] at hlookupBoot
  rw [hnames, Fs.resolve, Fs.resolve, Fs.resolve] at hresolve
  by_cases hnull : fs.child rootInum [98, 111, 111, 116] = nullInum
  · rw [if_pos hnull] at hresolve
    exact absurd hresolve.symm hn
  · rw [if_neg hnull] at hresolve hlookupBoot
    refine ⟨_, hnull, child_lt hsound.dirs (by decide) _, hlookupBoot, ?_⟩
    split at hresolve
    · exact absurd hresolve.symm hn
    · exact hresolve

/-- A child of a directory has a row of its own. -/
theorem Tree.row_of_child (htree : Tree fs) (hinum : inum < 200) {name : List UInt8} (hnul : 0 ∉ name)
    (hchild : fs.child inum name = n) (hn : n ≠ nullInum) : (fs.dinode inum).type = tDir ∧
      ∃ row < (fs.dirents inum).length, (fs.dirent inum row).inum = n ∧
        cstr (fs.dirent inum row).name = name ∧
        ∀ r < (fs.dirents inum).length, cstr (fs.dirent inum r).name = name → r = row := by
  rw [Fs.child] at hchild
  split at hchild
  · rename_i hdir
    refine ⟨hdir, ?_⟩
    rw [findName] at hchild
    cases hfind : (fs.dirents inum).find? fun de => strcmp name de.name = 0 with
    | none =>
      rw [hfind] at hchild
      exact absurd hchild.symm hn
    | some de =>
      rw [hfind] at hchild
      have hsame : strcmp name de.name = 0 := by simpa using List.find?_some hfind
      rw [strcmp_eq_zero_iff, cstr_of_nulFree hnul] at hsame
      obtain ⟨row, hrow, hget⟩ := List.mem_iff_getElem.mp (List.mem_of_find?_eq_some hfind)
      rw [getElem_dirents hrow] at hget
      refine ⟨row, hrow, by rw [hget]; exact hchild, by rw [hget, hsame], fun r hr hname => ?_⟩
      have hdistinct := htree.distinct inum hinum hdir
      have hr' : r < ((fs.dirents inum).map fun de => cstr de.name).length := by rwa [List.length_map]
      have hrow' : row < ((fs.dirents inum).map fun de => cstr de.name).length := by
        rwa [List.length_map]
      have hequal : ((fs.dirents inum).map fun de => cstr de.name)[r] =
          ((fs.dirents inum).map fun de => cstr de.name)[row] := by
        rw [List.getElem_map, List.getElem_map, getElem_dirents hr, getElem_dirents hrow, hname,
          hget, hsame]
      exact hdistinct.getElem_inj_iff.mp hequal
  · exact absurd hchild.symm hn

end Root

/-! ## Booting from a partition -/

/-- A regular file in `/boot` of a partition has one row of the boot menu. After `set` with the name
of the partition `boot` loads its bytes, when the keys have led to that row and Enter has been
pressed, as long as the entries of `/boot` fit on the screen. -/
theorem Machine.CarriesAt.boots {m : Machine} {x y : Fin 4} {p : Partition} {fs : Fs} {n : ℕ}
    {D : List UInt8} (h : m.CarriesAt x y p fs) (hp : p.Usable) {dst : CString} {name : List UInt8}
    (hdst : dst.bytes = bootPath.bytes ++ slash :: name) (hname : name ≠ []) (hfree : slash ∉ name)
    (hlookup : fsLookup fs (some dst) = .ok (n, fs)) (hn : n ≠ nullInum) (hholds : Holds fs n D) :
    ∃ inum row, fsLookup fs (some bootPath) = .ok (inum, fs) ∧ row < (fs.dirents inum).length ∧
      cstr (fs.dirent inum row).name = name ∧
      (∀ r < (fs.dirents inum).length, cstr (fs.dirent inum r).name = name → r = row) ∧
      set m (some (rootArgAt x y)) = .ok (m.rootedAt x y) ∧
      ((fs.dirents inum).length ≤ 25 → ∀ (keys rest : List KeyEvent) (e : KeyEvent),
        (∀ k ∈ keys, k.data ≠ 10) → e.data = 10 → keys.foldl (moveRow (fs.dirents inum).length) 0 = row →
        ∀ v mem, ∃ vga calls, ∀ fuel ≥ calls, bootSystem fuel (keys ++ e :: rest) mem v
          (m.rootedAt x y) =
          .ok (.loaded (memcpy mem loadAddress (.ofList D) 0 D.length) vga, m.rootedAt x y)) := by
  have hsound := h.carried.image.sane.sound
  have hwf := hsound.wellFormed
  obtain ⟨inum, hinum, hlt, hboot, hchild⟩ := hsound.boot_child hdst hname hfree hlookup hn
  have hnul : 0 ∉ name := fun hmem => dst.nulFree
    (by rw [hdst]; exact List.mem_append_right _ (.tail _ hmem))
  obtain ⟨htype, row, hrow, hentry, hcstr, hunique⟩ :=
    h.carried.image.tree.row_of_child hlt hnul hchild hn
  obtain ⟨himage', hkept, hsame⟩ := h.mounted hp (W := fun _ => False)
  have hsound' := himage'.sane.sound
  have hdirents : (m.rootedAt x y).fs.dirents inum = fs.dirents inum :=
    (hsame.sameDir hwf hlt htype).dirents_eq
  have htype' : ((m.rootedAt x y).fs.dinode inum).type = tDir := by rw [hsame.dinode hwf hlt, htype]
  have hdirBoot : BootDir (m.rootedAt x y).fs inum := by
    refine ⟨hsound'.wellFormed.init, hsound'.wellFormed.layout, ?_, hinum, hlt,
      hsound'.dirs.dirs inum hlt htype', ?_⟩
    · have hbytes : bootPath.bytes = slash :: [98, 111, 111, 116] := rfl
      have hshort : bootPath.ShortNames := shortNames_of_length (by decide)
      have hold := fsLookup_eq hwf.init hwf.layout hsound.dirs hbytes (by decide) hshort
      rw [hboot] at hold
      have hfound := (Prod.mk.inj (Except.ok.inj hold)).1
      have hnew := fsLookup_eq hsound'.wellFormed.init hsound'.wellFormed.layout hsound'.dirs hbytes
        (by decide) hshort
      rw [hkept.names _ (hfound ▸ hinum), ← hfound] at hnew
      exact ⟨_, hnew⟩
    · rw [hsame.dinode hwf hlt]
      rw [length_dirents] at hrow
      have hpos : 0 < (fs.dinode inum).size := by omega
      exact Nat.ne_of_gt hpos
  have hset := h.set_root hp hdirBoot htype'
  refine ⟨inum, row, hboot, hrow, hcstr, hunique, hset,
    fun hcount keys rest e hkeys henter hmoves v mem => ?_⟩
  have hholds' : Holds (m.rootedAt x y).fs ((m.rootedAt x y).fs.dirent inum
      (keys.foldl (moveRow ((m.rootedAt x y).fs.dirents inum).length) 0)).inum D := by
    have hdirent : (m.rootedAt x y).fs.dirent inum row = fs.dirent inum row :=
      Dirent.ofBytes_congr fun _ _ => (hsame.sameDir hwf hlt htype).content _
    rw [hdirents, hmoves, hdirent, hentry]
    exact (hkept.files n hholds.stored.inum_lt hholds.stored.reg id).holds hholds
  have hterm : ∀ de ∈ (m.rootedAt x y).fs.dirents inum, 0 ∈ de.name := by
    rw [hdirents]
    exact fun de hde => (h.carried.image.tree.names inum hlt htype de hde).1
  have hroot : (m.rootedAt x y).rootdrive ≠ -1 := by
    change ((x : ℕ) : ℤ) ≠ -1
    omega
  exact bootSystem_loads hroot hsound'.wellFormed hdirBoot (by rw [hdirents]; exact hcount) hterm
    hkeys henter hholds' v mem

/-! ## The installed system -/

end Hobby386
