import Hobby386.Grab.Boot
import Hobby386.Grab.Kbd
import Hobby386.Grab.Rows
import Hobby386.Grab.Shell

/-!
# The boot menu

The menu of `boot` shows the names of the systems in `/boot` and highlights one of them. The row on
the screen stands for the number of the entry: this holds as long as no name has scrolled the screen
and no slot of the directory has been left out.
-/

namespace Hobby386

open Runs

/-- `printf("%s\n", d.name)` for an entry that is not empty. A name without a terminator runs out of
the entry. -/
def printEntry (v : Vga) (d : Dirent) : Except Fault Vga :=
  if d.inum = 0 then .ok v
  else if 0 ∈ d.name then putchars v (cstr d.name ++ [10])
  else .error .outOfBounds

/-- The loop of `boot` over the entries, with the buffer of the entry: the number of entries, `none`
when the fuel is spent before the end of the directory. -/
def printEntries (inum : ℕ) : (fuel off : ℕ) → (cnt : ℤ) → Memory → Vga → Fs →
    Except Fault (Option ℤ × Vga × Fs)
  | 0, _, _, _, v, fs => .ok (none, v, fs)
  | fuel + 1, off, cnt, d, v, fs => do
    let r ← fsRead fs inum d direntSize off
    if r.1 < 0 then .error .panic
    else if r.1 = 0 then .ok (some cnt, v, r.2.2)
    else do
      let v ← printEntry v (.ofBytes r.2.1 0)
      printEntries inum fuel (u32 (off + direntSize)) (cnt + 1) r.2.1 v r.2.2

/-- The screen with the menu, and the variables of the loop over the keys. -/
structure Menu where
  vga : Vga
  row : ℤ
  cnt : ℤ

/-- `boot`, once a root is set, up to the loop over the keys: the inode of the directory and the
menu. The cursor is not part of the menu. -/
def bootMenu (fuel : ℕ) (fs : Fs) (v : Vga) : Except Fault (Option (ℕ × Menu) × Fs) := do
  let r ← fsLookup fs (some bootPath)
  if r.1 = nullInum then .error .panic
  else do
    let v ← vgaReset v
    let l ← printEntries r.1 fuel 0 0 (fun _ => 0) v r.2
    match l with
    | (none, _, fs) => .ok (none, fs)
    | (some cnt, v, fs) => do
      let v ← vgaSetColor v 0 blueWhite
      .ok (some (r.1, ⟨v, 0, cnt⟩), fs)

/-- The body of the loop over the keys; the flag tells whether it is left. -/
def menuKey (e : KeyEvent) (m : Menu) : Except Fault (Bool × Menu) :=
  if e.data = keyUArrow ∧ m.row ≠ 0 then do
    let v ← vgaSetColor m.vga m.row blackWhite
    let v ← vgaSetColor v (m.row - 1) blueWhite
    .ok (false, { m with vga := v, row := m.row - 1 })
  else if e.data = keyDArrow ∧ m.row < m.cnt - 1 then do
    let v ← vgaSetColor m.vga m.row blackWhite
    let v ← vgaSetColor v (m.row + 1) blueWhite
    .ok (false, { m with vga := v, row := m.row + 1 })
  else if e.data = 10 then do
    let v ← vgaSetColor m.vga m.row blackWhite
    let v ← vgaReset v
    .ok (true, { m with vga := v })
  else .ok (false, m)

/-- The end of `boot` without its messages: it reads the entry of the row and loads the file it names. -/
def bootEntry (fuel inum : ℕ) (row : ℤ) (mem : Memory) (fs : Fs) :
    Except Fault (Option Memory × Fs) := do
  let r ← fsRead fs inum (fun _ => 0) direntSize (u32 (bits32 row * direntSize))
  if r.1 ≠ direntSize then .error .panic
  else loadBlocks (Dirent.ofBytes r.2.1 0).inum fuel loadAddress 0 mem r.2.2

/-! ## A faithful menu -/

/-- The 80 cells of a row are blue. -/
def Vga.Highlighted (v : Vga) (r : ℕ) : Prop := ∀ i, i / 80 = r → colorOf (v.textbuf i) = blueWhite

/-- The menu highlights the row with the name of the entry that Enter loads. No other row is
highlighted, unless there have been blue cells on the screen `v` before. -/
structure Menu.Faithful (fs : Fs) (inum : ℕ) (v : Vga) (m : Menu) : Prop where
  row_nonneg : 0 ≤ m.row
  row_lt : m.row < m.cnt
  onScreen : m.row < 25
  highlighted : m.vga.Highlighted m.row.toNat
  only : v.AllCells (colorOf · ≠ blueWhite) → ∀ r < 25, m.vga.Highlighted r → r = m.row.toNat
  shows : m.vga.ShowsRow m.row.toNat (cstr (fs.dirent inum m.row.toNat).name)
  loads : ∀ fuel mem, bootEntry fuel inum m.row mem fs =
    loadBlocks (fs.dirent inum m.row.toNat).inum fuel loadAddress 0 mem fs

/-- The menu comes up, is faithful whatever keys are pressed, and its colors are only set in rows of the
screen. -/
def BootsHighlighted (fs : Fs) (inum : ℕ) (v : Vga) : Prop :=
  ∃ m₀ fs₁, (∃ calls, ∀ fuel ≥ calls, bootMenu fuel fs v = .ok (some (inum, m₀), fs₁)) ∧
    ∀ t m, Run menuKey (fun _ _ e => e.data ≠ 10) m₀ t m →
      m.Faithful fs₁ inum v ∧ ∀ e, ∃ r, menuKey e m = .ok r

/-- A mounted file system with a directory `/boot` that is not empty. -/
structure BootDir (fs : Fs) (inum : ℕ) : Prop where
  init : fs.init = true
  layout : fs.su.Layout
  lookup : ∃ fs₁, fsLookup fs (some bootPath) = .ok (inum, fs₁)
  used : inum ≠ nullInum
  lt : inum < 200
  dir : GoodDir fs inum
  size_ne : (fs.dinode inum).size ≠ 0

/-- The rows that the names of the entries make: those of the slots in use, the last 24 of them. -/
def menuRows (des : List Dirent) : List (List UInt8) :=
  let names := (des.filter fun de => de.inum ≠ 0).map fun de => cstr de.name
  names.drop (names.length - 24)

/-- The rows are the names of all slots, and there is a row on the screen for each. -/
structure MenuFits (des : List Dirent) : Prop where
  count : des.length ≤ 25
  plain : ∀ de ∈ des, ∀ c ∈ cstr de.name, c ∉ controls
  terminated : ∀ de ∈ des, de.inum ≠ 0 → 0 ∈ de.name
  rows : ∀ i (h : i < des.length), (menuRows des).getD i [] = cstr des[i].name

/-! ## Printing the entries -/

/-- The output of the loop over the entries. -/
def printNames : Vga → List Dirent → Except Fault Vga
  | v, [] => .ok v
  | v, d :: des => do
    let v ← printEntry v d
    printNames v des

section Print

variable {fs : Fs} {inum : ℕ} {v v' : Vga}

/-- The loop over the entries of a directory prints their names and counts them. -/
theorem printEntries_eq (hinit : fs.init = true) (hlayout : fs.su.Layout) (hi : inum < 200)
    (hdir : GoodDir fs inum) {fuel i k : ℕ} (hk : i + k = (fs.dinode inum).size / 16)
    (hfuel : k < fuel) (cnt : ℤ) (d : Memory) (v : Vga) :
    printEntries inum fuel (16 * i) cnt d v fs =
      printNames v ((List.range' i k).map (fs.dirent inum)) >>= fun v =>
      .ok (some (cnt + k), v, fs) := by
  have hmod := hdir.size_mod
  have hsize := hdir.size_le
  simp only [maxBytes, maxBlocks] at hsize
  induction k generalizing fuel i cnt d v with
  | zero =>
    obtain ⟨fuel, rfl⟩ : ∃ f, fuel = f + 1 := ⟨fuel - 1, by omega⟩
    have hread := fsRead_behind hinit hlayout hi d (show direntSize ≤ 0xefffffff by decide)
      (show (fs.dinode inum).size ≤ 16 * i by omega)
    rw [printEntries, hread, ok_bind, if_neg (by simp), if_pos rfl]
    simp [printNames]
  | succ k ih =>
    obtain ⟨fuel, rfl⟩ : ∃ f, fuel = f + 1 := ⟨fuel - 1, by omega⟩
    obtain ⟨mem, hread, hde⟩ := fsRead_dirent hinit hlayout hi hdir (show i < _ by omega) d
    rw [printEntries, hread, ok_bind, if_neg (by simp), if_neg (by simp), List.range'_succ,
      List.map_cons, printNames]
    dsimp only
    rw [hde]
    cases hprint : printEntry v (fs.dirent inum i) with
    | error e => rfl
    | ok v₁ =>
      rw [ok_bind, ok_bind, show u32 (16 * i + direntSize) = 16 * (i + 1) by
        rw [u32_of_lt (by simp only [direntSize]; omega)]; rfl, ih (by omega) (by omega)]
      congr 2
      funext v₂
      rw [show cnt + 1 + (k : ℤ) = cnt + ((k + 1 : ℕ) : ℤ) by push_cast; ring]

/-- Printing keeps what any output keeps. -/
theorem Vga.AllCells.printNames {p : UInt16 → Prop} (hp : Printed p) {des : List Dirent}
    (h : v.AllCells p) (hprint : Hobby386.printNames v des = .ok v') : v'.AllCells p := by
  induction des generalizing v with
  | nil =>
    cases hprint
    exact h
  | cons d des ih =>
    rw [Hobby386.printNames, bind_eq_ok] at hprint
    obtain ⟨v₁, hfirst, hrest⟩ := hprint
    refine ih ?_ hrest
    rw [printEntry] at hfirst
    split at hfirst
    · cases hfirst
      exact h
    · split at hfirst
      · exact h.putchars hp hfirst
      · cases hfirst

/-- Names are printed only if they are terminated. -/
theorem terminated_of_printNames {des : List Dirent} (hprint : printNames v des = .ok v') :
    ∀ de ∈ des, de.inum ≠ 0 → 0 ∈ de.name := by
  induction des generalizing v with
  | nil => simp
  | cons d des ih =>
    rw [printNames, bind_eq_ok] at hprint
    obtain ⟨v₁, hfirst, hrest⟩ := hprint
    refine List.forall_mem_cons.mpr ⟨fun hused => ?_, ih hrest⟩
    rw [printEntry, if_neg hused] at hfirst
    by_contra hopen
    rw [if_neg hopen] at hfirst
    cases hfirst

/-- Plain names that are terminated make a row each. -/
theorem printNames_typing {des : List Dirent} {rows : List (List UInt8)} (h : v.Typing rows [])
    (hplain : ∀ de ∈ des, ∀ c ∈ cstr de.name, c ∉ controls)
    (hterm : ∀ de ∈ des, de.inum ≠ 0 → 0 ∈ de.name) (hlen : ∀ de ∈ des, de.name.length = maxName) :
    ∃ v', printNames v des = .ok v' ∧
      v'.Typing (((des.filter fun de => de.inum ≠ 0).map fun de => cstr de.name).foldl pushRow rows)
      [] := by
  induction des generalizing v rows with
  | nil => exact ⟨v, rfl, h⟩
  | cons d des ih =>
    rw [List.forall_mem_cons] at hplain hterm hlen
    by_cases hused : d.inum = 0
    · obtain ⟨v', hprint, htyping⟩ := ih h hplain.2 hterm.2 hlen.2
      refine ⟨v', ?_, ?_⟩
      · rw [printNames, printEntry, if_pos hused, ok_bind, hprint]
      · rwa [List.filter_cons_of_neg (by simp [hused])]
    · have hshort : (cstr d.name).length < 80 :=
        (List.takeWhile_sublist _).length_le.trans_lt (by rw [hlen.1]; decide)
      obtain ⟨v₁, hputs, htyping₁⟩ := h.line hplain.1 hshort
      obtain ⟨v', hprint, htyping⟩ := ih htyping₁ hplain.2 hterm.2 hlen.2
      refine ⟨v', ?_, ?_⟩
      · rw [printNames, printEntry, if_neg hused, if_pos (hterm.1 hused), hputs, ok_bind, hprint]
      · rwa [List.filter_cons_of_pos (by simp [hused]), List.map_cons, List.foldl_cons]

end Print

/-! ## The colors -/

section Colors

variable {v v' : Vga} {row : ℤ} {color : UInt8}

/-- `vga_set_color` sets the color of the cells of a row, and only in rows of the screen. -/
theorem vgaSetColor_eq_ok (h : vgaSetColor v row color = .ok v') : 0 ≤ row ∧ row < 25 ∧
    (∀ i, charOf (v'.textbuf i) = charOf (v.textbuf i)) ∧
    ∀ i, colorOf (v'.textbuf i) = if i / 80 = row.toNat then color else colorOf (v.textbuf i) := by
  rw [vgaSetColor] at h
  split at h
  · cases h
  · rename_i hrow
    cases h
    refine ⟨by omega, by omega, fun i => ?_, fun i => ?_⟩
    · dsimp only
      split
      · exact charOf_recolor _ _
      · rfl
    · dsimp only
      by_cases hi : i / 80 = row.toNat
      · rw [if_pos (by omega), if_pos hi, colorOf_recolor]
      · rw [if_neg (by omega), if_neg hi]

/-- A row of the screen can be colored. -/
theorem vgaSetColor_returns (v : Vga) (hrow : 0 ≤ row ∧ row < 25) (color : UInt8) :
    ∃ v', vgaSetColor v row color = .ok v' := ⟨_, if_neg (by omega)⟩

end Colors

/-! ## The keys -/

/-- What every key keeps: the characters on the screen, and the highlighted row in step with the
variable. -/
structure Menu.Follows (v : Vga) (n : ℕ) (m : Menu) : Prop where
  cnt : m.cnt = n
  row_nonneg : 0 ≤ m.row
  row_lt : m.row < n
  onScreen : m.row < 25
  chars : ∀ i, charOf (m.vga.textbuf i) = charOf (v.textbuf i)
  highlighted : m.vga.Highlighted m.row.toNat
  others : v.AllCells (colorOf · ≠ blueWhite) → ∀ i < screenCells, i / 80 ≠ m.row.toNat →
    colorOf (m.vga.textbuf i) ≠ blueWhite

section Keys

variable {v v₁ v₂ : Vga} {n : ℕ} {m m' : Menu} {e : KeyEvent} {b : Bool}

/-- The first row is highlighted before the first key. -/
theorem follows_start (hn : 0 < n) (h : vgaSetColor v 0 blueWhite = .ok v₁) :
    Menu.Follows v n ⟨v₁, 0, n⟩ := by
  obtain ⟨-, -, hchars, hcolors⟩ := vgaSetColor_eq_ok h
  refine ⟨rfl, le_rfl, Int.natCast_pos.mpr hn, show (0 : ℤ) < 25 by decide, hchars, fun i hi => ?_,
    fun hblue i hlt hi => ?_⟩
  · rw [hcolors, if_pos hi]
  · rw [hcolors, if_neg hi]
    exact hblue i hlt

namespace Menu.Follows

/-- The highlighted row moves. -/
theorem move (h : m.Follows v n) {row : ℤ} (hrow : row < n)
    (hold : vgaSetColor m.vga m.row blackWhite = .ok v₁)
    (hnew : vgaSetColor v₁ row blueWhite = .ok v₂) : Follows v n { m with vga := v₂, row := row } := by
  obtain ⟨-, -, hchars, hcolors⟩ := vgaSetColor_eq_ok hold
  obtain ⟨hnonneg, hlt, hchars', hcolors'⟩ := vgaSetColor_eq_ok hnew
  refine ⟨h.cnt, hnonneg, hrow, hlt, fun i => ?_, fun i hi => ?_, fun hblue i hilt hi => ?_⟩
  · rw [hchars', hchars, h.chars]
  · rw [hcolors', if_pos hi]
  · rw [hcolors', if_neg hi, hcolors]
    split
    · decide
    · rename_i hne
      exact h.others hblue i hilt hne

/-- Keys other than Enter keep the menu in step. -/
theorem key (h : m.Follows v n) (hkey : e.data ≠ 10) (hcall : menuKey e m = .ok (b, m')) :
    m'.Follows v n := by
  have hrow := h.row_lt
  rw [menuKey] at hcall
  split at hcall
  · rw [bind_eq_ok] at hcall
    obtain ⟨v₁, hold, hcall⟩ := hcall
    rw [bind_eq_ok] at hcall
    obtain ⟨v₂, hnew, hcall⟩ := hcall
    cases hcall
    exact h.move (by omega) hold hnew
  · split at hcall
    · rename_i hdown
      rw [bind_eq_ok] at hcall
      obtain ⟨v₁, hold, hcall⟩ := hcall
      rw [bind_eq_ok] at hcall
      obtain ⟨v₂, hnew, hcall⟩ := hcall
      cases hcall
      have hcnt := h.cnt
      exact h.move (by omega) hold hnew
    · cases hcall
      exact h

/-- With no more entries than rows every key is handled. -/
theorem key_returns (h : m.Follows v n) (hn : n ≤ 25) (e : KeyEvent) : ∃ r, menuKey e m = .ok r := by
  have hnonneg := h.row_nonneg
  have hlt := h.row_lt
  have hcnt := h.cnt
  obtain ⟨v₁, hold⟩ := vgaSetColor_returns m.vga ⟨hnonneg, h.onScreen⟩ blackWhite
  rw [menuKey]
  split
  · obtain ⟨v₂, hnew⟩ := vgaSetColor_returns v₁ (show 0 ≤ m.row - 1 ∧ m.row - 1 < 25 by omega) blueWhite
    exact ⟨_, by rw [hold, ok_bind, hnew, ok_bind]⟩
  · split
    · obtain ⟨v₂, hnew⟩ := vgaSetColor_returns v₁ (show 0 ≤ m.row + 1 ∧ m.row + 1 < 25 by omega)
        blueWhite
      exact ⟨_, by rw [hold, ok_bind, hnew, ok_bind]⟩
    · split
      · obtain ⟨v₂, hreset, -⟩ := vgaReset_eq v₁
        exact ⟨_, by rw [hold, ok_bind, hreset, ok_bind]⟩
      · exact ⟨_, rfl⟩

end Menu.Follows

/-- The down arrow goes to the next row. -/
theorem menuKey_down (hdown : e.data = keyDArrow) (hrow : m.row < m.cnt - 1)
    (hcall : menuKey e m = .ok (b, m')) :
    m'.row = m.row + 1 := by
  rw [menuKey, if_neg (by rw [hdown]; exact fun hup => absurd hup.1 (by decide)),
    if_pos ⟨hdown, hrow⟩] at hcall
  simp only [bind_eq_ok] at hcall
  obtain ⟨v₁, -, v₂, -, hcall⟩ := hcall
  cases hcall
  rfl

/-- If no key fails, every row can be reached. -/
theorem exists_run_to_row {m₀ : Menu} (h₀ : m₀.Follows v n) (hzero : m₀.row = 0)
    (hall : ∀ t m, Run menuKey (fun _ _ e => e.data ≠ 10) m₀ t m → ∀ e, ∃ r, menuKey e m = .ok r)
    {i : ℕ} (hi : i < n) :
    ∃ t m, Run menuKey (fun _ _ e => e.data ≠ 10) m₀ t m ∧ m.row = i ∧ m.Follows v n := by
  induction i with
  | zero => exact ⟨[], m₀, .start, hzero, h₀⟩
  | succ i ih =>
    obtain ⟨t, m, hrun, hrow, hfollows⟩ := ih (by omega)
    have hdown : (dataEvent Keyboard.boot keyDArrow false).data = keyDArrow := rfl
    have hkey : (dataEvent Keyboard.boot keyDArrow false).data ≠ 10 := by decide
    obtain ⟨⟨b, m'⟩, hcall⟩ := hall t m hrun (dataEvent Keyboard.boot keyDArrow false)
    have hcnt := hfollows.cnt
    refine ⟨_, m', hrun.call hkey hcall, ?_, hfollows.key hkey hcall⟩
    rw [menuKey_down hdown (by omega) hcall, hrow]
    push_cast
    rfl

end Keys

/-! ## What the rows show -/

/-- A row shows one text. -/
theorem Vga.ShowsRow.unique {v : Vga} {r : ℕ} {s t : List UInt8} (hs : v.ShowsRow r s)
    (ht : v.ShowsRow r t) (hs₀ : 0 ∉ s ∧ s.length < 80) (ht₀ : 0 ∉ t ∧ t.length < 80) : s = t := by
  have hget : ∀ j < 80, s.getD j 0 = t.getD j 0 := fun j hj => (hs j hj).symm.trans (ht j hj)
  have hle : ∀ {a b : List UInt8}, 0 ∉ a → a.length < 80 → (∀ j < 80, a.getD j 0 = b.getD j 0) →
      a.length ≤ b.length := by
    intro a b hnul hlt hab
    by_contra hlong
    have hlast := hab b.length (by omega)
    rw [List.getD_eq_getElem _ _ (by omega), List.getD_eq_default _ _ le_rfl] at hlast
    exact hnul (hlast ▸ List.getElem_mem _)
  have hlength : s.length = t.length :=
    Nat.le_antisymm (hle hs₀.1 hs₀.2 hget) (hle ht₀.1 ht₀.2 fun j hj => (hget j hj).symm)
  refine List.ext_getElem hlength fun j hj hj' => ?_
  have hj80 := hget j (by omega)
  rwa [List.getD_eq_getElem _ _ hj, List.getD_eq_getElem _ _ hj'] at hj80

/-- A name as a row. -/
theorem cstr_row {s : List UInt8} (hlen : s.length = maxName) : 0 ∉ cstr s ∧ (cstr s).length < 80 := by
  constructor
  · intro hnul
    exact absurd (List.mem_takeWhile_imp hnul) (by simp)
  · exact (List.takeWhile_sublist _).length_le.trans_lt (by rw [hlen]; decide)

/-- Every row of the menu has a text shorter than a row, without a terminator in it. -/
theorem menuRows_row {des : List Dirent} (hlen : ∀ de ∈ des, de.name.length = maxName) (i : ℕ) :
    0 ∉ (menuRows des).getD i [] ∧ ((menuRows des).getD i []).length < 80 := by
  rcases Nat.lt_or_ge i (menuRows des).length with hlt | hge
  · rw [List.getD_eq_getElem _ _ hlt]
    obtain ⟨de, hde, hname⟩ := List.mem_map.mp (List.mem_of_mem_drop (List.getElem_mem hlt))
    rw [← hname]
    exact cstr_row (hlen de (List.mem_of_mem_filter hde))
  · rw [List.getD_eq_default _ _ hge]
    decide

section Boot

variable {fs fs₁ : Fs} {inum : ℕ} (h : BootDir fs inum)

/-- The lookup of `/boot` leaves the directory as it is. -/
theorem BootDir.of_sameStore (h : BootDir fs inum) (hsame : SameStore fs fs₁) : fs₁.init = true ∧
    fs₁.su.Layout ∧
    GoodDir fs₁ inum ∧ fs₁.dirent inum = fs.dirent inum ∧ fs₁.dirents inum = fs.dirents inum := by
  rw [hsame]
  exact ⟨h.init, h.layout, ⟨h.dir.size_mod, h.dir.size_le, h.dir.mapped⟩, rfl, rfl⟩

/-- The number of slots of a directory. -/
theorem length_dirents (fs : Fs) (inum : ℕ) : (fs.dirents inum).length = (fs.dinode inum).size / 16 := by
  simp [Fs.dirents]

/-- The slots of a directory by index. -/
theorem getElem_dirents {i : ℕ} (hi : i < (fs.dirents inum).length) :
    (fs.dirents inum)[i] = fs.dirent inum i := by
  simp [Fs.dirents]

/-- The names of the slots fill their fields. -/
theorem length_name_of_mem_dirents : ∀ de ∈ fs.dirents inum, de.name.length = maxName := by
  intro de hde
  obtain ⟨i, -, rfl⟩ := List.mem_map.mp hde
  simp [Fs.dirent, Dirent.ofBytes]

include h

/-- The boot directory has a slot. -/
theorem BootDir.length_pos : 0 < (fs.dirents inum).length := by
  have hmod := h.dir.size_mod
  have hne := h.size_ne
  rw [length_dirents]
  omega

/-- With enough fuel `boot` prints the names of all entries on a cleared screen and highlights the
first row. -/
theorem BootDir.bootMenu_eq {v v₀ : Vga} (hlookup : fsLookup fs (some bootPath) = .ok (inum, fs₁))
    (hreset : vgaReset v = .ok v₀) {fuel : ℕ} (hfuel : (fs.dirents inum).length < fuel) :
    bootMenu fuel fs v = printNames v₀ (fs.dirents inum) >>= fun v₁ =>
      vgaSetColor v₁ 0 blueWhite >>= fun v₂ =>
      .ok (some (inum, ⟨v₂, 0, ((fs.dirents inum).length : ℕ)⟩), fs₁) := by
  obtain ⟨hinit, hlayout, hdir, -, hdirents⟩ := h.of_sameStore (sameStore_fsLookup hlookup)
  rw [← hdirents, length_dirents] at hfuel
  have hprint := printEntries_eq hinit hlayout h.lt hdir (Nat.zero_add _) hfuel 0 (fun _ => 0) v₀
  rw [Nat.mul_zero, ← List.range_eq_range', ← Fs.dirents, hdirents, ← length_dirents, hdirents,
    zero_add] at hprint
  rw [bootMenu, hlookup, ok_bind, if_neg h.used, hreset, ok_bind, hprint]
  cases printNames v₀ (fs.dirents inum) with
  | error e => rfl
  | ok v₁ => rfl

/-- Enter loads the file of the entry with the number of the row. -/
theorem BootDir.bootEntry_eq (hsame : SameStore fs fs₁) {row : ℤ}
    (hrow : 0 ≤ row ∧ row < (fs.dirents inum).length) (fuel : ℕ) (mem : Memory) :
    bootEntry fuel inum row mem fs₁ =
      loadBlocks (fs₁.dirent inum row.toNat).inum fuel loadAddress 0 mem fs₁ := by
  obtain ⟨hinit, hlayout, hdir, -, hdirents⟩ := h.of_sameStore hsame
  have hsize := hdir.size_le
  simp only [maxBytes, maxBlocks] at hsize
  rw [← hdirents, length_dirents] at hrow
  obtain ⟨mem', hread, hde⟩ :=
    fsRead_dirent hinit hlayout h.lt hdir (show row.toNat < _ by omega) fun _ => 0
  have hoff : u32 (bits32 row * direntSize) = 16 * row.toNat := by
    rw [bits32_of_nonneg hrow.1 (by omega), u32_of_lt (by simp only [direntSize]; omega)]
    exact Nat.mul_comm _ _
  rw [bootEntry, hoff, hread, ok_bind, if_neg (by simp), hde]

/-- The menu when it comes up: the printed names with the first row highlighted. -/
theorem BootDir.start {v : Vga} {m₀ : Menu} {fuel : ℕ} (hfuel : (fs.dirents inum).length < fuel)
    (hmenu : bootMenu fuel fs v = .ok (some (inum, m₀), fs₁)) : ∃ v₀ v₁, vgaReset v = .ok v₀ ∧
      printNames v₀ (fs.dirents inum) = .ok v₁ ∧ SameStore fs fs₁ ∧ m₀.row = 0 ∧
      m₀.Follows v₁ (fs.dirents inum).length := by
  obtain ⟨v₀, hreset, -⟩ := vgaReset_eq v
  obtain ⟨fs₂, hlookup⟩ := h.lookup
  rw [h.bootMenu_eq hlookup hreset hfuel] at hmenu
  simp only [bind_eq_ok] at hmenu
  obtain ⟨v₁, hprint, v₂, hcolor, hmenu⟩ := hmenu
  cases hmenu
  exact ⟨v₀, v₁, hreset, hprint, sameStore_fsLookup hlookup, rfl, follows_start h.length_pos hcolor⟩

end Boot

/-- The colors of what is printed. -/
theorem printed_color : Printed (colorOf · ≠ blueWhite) where
  char := fun c _ => by
    rw [colorOf_cell]
    decide
  clear := fun w hw => by rwa [colorOf_clear]

/-- The characters of what is printed. -/
theorem printed_char : Printed (charOf · ∉ controls) where
  char := fun c hc => by rwa [charOf_cell]
  clear := fun w _ => by
    rw [charOf_clear]
    decide

section Main

variable {fs : Fs} {inum : ℕ} {v : Vga} (h : BootDir fs inum)

include h

/-- A directory that fits has a faithful menu. -/
theorem BootDir.faithful (hfits : MenuFits (fs.dirents inum)) : BootsHighlighted fs inum v := by
  obtain ⟨v₀, hreset, htyping, hclear⟩ := vgaReset_eq v
  obtain ⟨fs₁, hlookup⟩ := h.lookup
  have hsame := sameStore_fsLookup hlookup
  obtain ⟨-, -, -, hdirent, -⟩ := h.of_sameStore hsame
  obtain ⟨v₁, hprint, hrows⟩ :=
    printNames_typing htyping hfits.plain hfits.terminated length_name_of_mem_dirents
  rw [foldl_pushRow] at hrows
  obtain ⟨v₂, hcolor⟩ := vgaSetColor_returns v₁ (show (0 : ℤ) ≤ 0 ∧ (0 : ℤ) < 25 by decide) blueWhite
  refine ⟨⟨v₂, 0, ((fs.dirents inum).length : ℕ)⟩, fs₁,
    ⟨(fs.dirents inum).length + 1, fun fuel hfuel => ?_⟩, ?_⟩
  · rw [h.bootMenu_eq hlookup hreset hfuel, hprint, ok_bind, hcolor, ok_bind]
  · intro t m hrun
    have hfollows : m.Follows v₁ (fs.dirents inum).length := by
      refine hrun.preserves (I := Menu.Follows v₁ (fs.dirents inum).length) ?_
        (follows_start h.length_pos hcolor)
      intro t m₁ e b m₂ hbefore hkey hcall
      exact hbefore.key hkey hcall
    have hnonneg := hfollows.row_nonneg
    have hlt := hfollows.row_lt
    have honScreen := hfollows.onScreen
    have hr : m.row.toNat < (fs.dirents inum).length := by omega
    refine ⟨⟨hnonneg, hfollows.cnt ▸ hlt, honScreen, hfollows.highlighted,
      fun hblue r hr25 hrow => ?_, ?_,
      fun fuel mem => h.bootEntry_eq hsame ⟨hnonneg, hlt⟩ fuel mem⟩, hfollows.key_returns hfits.count⟩
    · by_contra hne
      have hblue₀ : v₀.AllCells (colorOf · ≠ blueWhite) := fun i hi => by
        show colorOf (v₀.textbuf i) ≠ blueWhite
        rw [(hclear i hi).2]
        exact hblue i hi
      have hblue₁ := hblue₀.printNames printed_color hprint
      exact hfollows.others hblue₁ (80 * r) (by simp only [screenCells]; omega) (by omega)
        (hrow (80 * r) (by omega))
    · intro j hj
      have hshown := hrows.shows m.row.toNat (by omega) j hj
      rw [getD_append_default] at hshown
      have hname : (menuRows (fs.dirents inum)).getD m.row.toNat [] =
          cstr (fs₁.dirent inum m.row.toNat).name := by
        rw [hfits.rows _ hr, getElem_dirents hr, hdirent]
      rw [hfollows.chars, hshown, ← hname]
      rfl

/-- A directory with a faithful menu fits. -/
theorem BootDir.fits (hboots : BootsHighlighted fs inum v) : MenuFits (fs.dirents inum) := by
  obtain ⟨m₀, fs₁, ⟨calls, hmenu⟩, hruns⟩ := hboots
  obtain ⟨v₀, v₁, hreset, hprint, hsame, hzero, hstart⟩ :=
    h.start (show _ < max calls ((fs.dirents inum).length + 1) by omega) (hmenu _ (le_max_left _ _))
  obtain ⟨-, -, -, hdirent, -⟩ := h.of_sameStore hsame
  obtain ⟨v₀', hreset', htyping, hclear⟩ := vgaReset_eq v
  obtain rfl : v₀ = v₀' := Except.ok.inj (hreset.symm.trans hreset')
  have hreach (i : ℕ) (hi : i < (fs.dirents inum).length) :
      i < 25 ∧ v₁.ShowsRow i (cstr (fs.dirents inum)[i].name) := by
    obtain ⟨t, m, hrun, hrow, hfollows⟩ :=
      exists_run_to_row hstart hzero (fun t m hrun => (hruns t m hrun).2) hi
    have hfaithful := (hruns t m hrun).1
    have honScreen := hfaithful.onScreen
    have hshows := hfaithful.shows
    rw [hrow, Int.toNat_natCast, hdirent] at hshows
    refine ⟨by omega, fun j hj => ?_⟩
    rw [← hfollows.chars, hshows j hj, getElem_dirents hi]
  have hplain : ∀ de ∈ fs.dirents inum, ∀ c ∈ cstr de.name, c ∉ controls := by
    intro de hde c hc
    obtain ⟨i, hi, rfl⟩ := List.mem_iff_getElem.mp hde
    obtain ⟨j, hj, rfl⟩ := List.mem_iff_getElem.mp hc
    obtain ⟨hi25, hshows⟩ := hreach i hi
    have hj80 := hj.trans (cstr_row (length_name_of_mem_dirents _ hde)).2
    have hchars : v₀.AllCells (charOf · ∉ controls) := fun k hk => by
      show charOf (v₀.textbuf k) ∉ controls
      rw [(hclear k hk).1]
      decide
    have hcell : charOf (v₁.textbuf (80 * i + j)) ∉ controls :=
      hchars.printNames printed_char hprint (80 * i + j) (by simp only [screenCells]; omega)
    rwa [hshows j hj80, List.getD_eq_getElem _ _ hj] at hcell
  have hterm := terminated_of_printNames hprint
  obtain ⟨v₁', hprint', hrows⟩ := printNames_typing htyping hplain hterm length_name_of_mem_dirents
  obtain rfl : v₁ = v₁' := Except.ok.inj (hprint.symm.trans hprint')
  rw [foldl_pushRow] at hrows
  refine ⟨?_, hplain, hterm, fun i hi => ?_⟩
  · have hlast := (hreach ((fs.dirents inum).length - 1) (by have hpos := h.length_pos; omega)).1
    omega
  · obtain ⟨hi25, hshows⟩ := hreach i hi
    have hshown := hrows.shows i hi25
    rw [getD_append_default] at hshown
    exact hshown.unique hshows (menuRows_row length_name_of_mem_dirents i)
      (cstr_row (length_name_of_mem_dirents _ (List.getElem_mem hi)))

end Main

/-- Whatever keys are pressed, the boot menu highlights the name of the system that Enter loads, if
and only if the names of all slots of the directory stand in the rows with their numbers: the
directory has no more slots than the screen has rows, the names are terminated and have no control
characters, and neither an empty slot nor a scrolled line puts another name into a row. -/
theorem boot_menu_iff {fs : Fs} {inum : ℕ} (h : BootDir fs inum) (v : Vga) :
    BootsHighlighted fs inum v ↔ MenuFits (fs.dirents inum) := ⟨h.fits, h.faithful⟩

/-- A directory without empty slots whose names are distinct fits if and only if it has at most 24
entries, all with plain names. -/
theorem menuFits_iff_of_distinct {des : List Dirent} (hused : ∀ de ∈ des, de.inum ≠ 0)
    (hdistinct : (des.map fun de => cstr de.name).Nodup) : MenuFits des ↔
      des.length ≤ 24 ∧ ∀ de ∈ des, 0 ∈ de.name ∧ ∀ c ∈ cstr de.name, c ∉ controls := by
  have hrows : menuRows des = (des.map fun de => cstr de.name).drop (des.length - 24) := by
    rw [menuRows, List.filter_eq_self.mpr fun de hde => by simpa using hused de hde, List.length_map]
  constructor
  · intro h
    refine ⟨?_, fun de hde => ⟨h.terminated de hde (hused de hde), h.plain de hde⟩⟩
    by_contra hlong
    have hcount := h.count
    have hfirst := h.rows 0 (by omega)
    rw [hrows, show des.length - 24 = 1 by omega, List.getD_eq_getElem _ _ (by simp; omega),
      List.getElem_drop, List.getElem_map] at hfirst
    have h₀ : 0 < (des.map fun de => cstr de.name).length := by
      rw [List.length_map]
      omega
    have h₁ : 1 < (des.map fun de => cstr de.name).length := by
      rw [List.length_map]
      omega
    have hnames : (des.map fun de => cstr de.name)[1] = (des.map fun de => cstr de.name)[0] := by
      simpa using hfirst
    exact absurd (hdistinct.getElem_inj_iff.mp hnames) (by decide)
  · rintro ⟨hcount, hplain⟩
    refine ⟨by omega, fun de hde => (hplain de hde).2, fun de hde _ => (hplain de hde).1, fun i hi => ?_⟩
    rw [hrows, Nat.sub_eq_zero_of_le hcount, List.drop_zero,
      List.getD_eq_getElem _ _ (by simpa using hi), List.getElem_map]

/-- A disk with `n` empty files `/boot/a`, `/boot/b` and so on. -/
def systemsDisk (n : ℕ) : Disk := fun k =>
  if k = 32 then (bootDisk 32).setInode 2 (smallDir 59 (16 * n) 1)
  else if k = 59 then
    .ofFn fun i => (⟨3 + i / 16, strncpy [.ofNat (97 + i / 16)] maxName⟩ : Dirent).bytes (i % 16)
  else bootDisk k

/-- The file system of the disk, mounted. -/
def systemsFs (n : ℕ) : Fs := ⟨true, newSuper bootPartition, systemsDisk n, []⟩

/-- The directory of the example is a boot directory. -/
theorem bootDir_systems {n : ℕ} (hn : 0 < n ∧ n ≤ 32)
    (hlookup : (fsLookup (systemsFs n) (some bootPath)).map Prod.fst = .ok 2)
    (hsize : ((systemsFs n).dinode 2).size = 16 * n) (hblock : (systemsFs n).fileBlock 2 0 ≠ 0) :
    BootDir (systemsFs n) 2 where
  init := rfl
  layout := layout_newSuper (by constructor <;> decide)
  lookup := by
    cases hcall : fsLookup (systemsFs n) (some bootPath) with
    | error e =>
      rw [hcall] at hlookup
      cases hlookup
    | ok r =>
      obtain ⟨inum, fs₁⟩ := r
      rw [hcall] at hlookup
      cases hlookup
      exact ⟨fs₁, rfl⟩
  used := by decide
  lt := by decide
  dir := by
    refine ⟨by rw [hsize, Nat.mul_mod_right], ?_, fun k hk => ?_⟩
    · rw [hsize]
      simp only [maxBytes, maxBlocks]
      omega
    · obtain rfl : k = 0 := by omega
      exact hblock
  size_ne := by omega

/-- An empty screen. -/
def blankScreen : Vga := ⟨fun _ => 0, 0, 0⟩

/-- The menu of three systems. -/
theorem boot_menu_iff_three : BootDir (systemsFs 3) 2 ∧ ((systemsFs 3).dirents 2).length = 3 ∧
    BootsHighlighted (systemsFs 3) 2 blankScreen := by
  have hdir : BootDir (systemsFs 3) 2 :=
    bootDir_systems (by decide) (by decide +kernel) (by decide +kernel) (by decide +kernel)
  have hused : ∀ de ∈ (systemsFs 3).dirents 2, de.inum ≠ 0 := by decide +kernel
  have hdistinct : (((systemsFs 3).dirents 2).map fun de => cstr de.name).Nodup := by decide +kernel
  have hplain : ∀ de ∈ (systemsFs 3).dirents 2, 0 ∈ de.name ∧ ∀ c ∈ cstr de.name, c ∉ controls := by
    decide +kernel
  have hcount : ((systemsFs 3).dirents 2).length = 3 := by decide +kernel
  have hfits := (menuFits_iff_of_distinct hused hdistinct).mpr ⟨by rw [hcount]; decide, hplain⟩
  exact ⟨hdir, hcount, (boot_menu_iff hdir blankScreen).mpr hfits⟩

/-- The menu of 26 systems does not boot what it highlights. -/
theorem not_boot_menu : BootDir (systemsFs 26) 2 ∧ ((systemsFs 26).dirents 2).length = 26 ∧
    ¬BootsHighlighted (systemsFs 26) 2 blankScreen := by
  have hdir : BootDir (systemsFs 26) 2 :=
    bootDir_systems (by decide) (by decide +kernel) (by decide +kernel) (by decide +kernel)
  have hcount : ((systemsFs 26).dirents 2).length = 26 := by decide +kernel
  refine ⟨hdir, hcount, fun hboots => ?_⟩
  have hle := (hdir.fits hboots).count
  rw [hcount] at hle
  exact absurd hle (by decide)

end Hobby386
