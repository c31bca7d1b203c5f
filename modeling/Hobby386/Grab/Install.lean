import Hobby386.Grab.Start
import Hobby386.Kernel.Start

/-!
# From the sources of a drive to the running kernel

After the program `mkfs` has prepared a drive, the first stage is copied to its first sector, up to
the partition table, and the second stage to the 63 sectors behind. Here a machine boots from such a
drive: the BIOS loads the first sector, the first stage the second one, the shell of the second
stage the kernel, and the kernel finds its bytes at the addresses that it is linked to.
-/

namespace Hobby386

open LittleEndian Segments Stage1

/-! ## The boot loader on a drive -/

/-- `dd` with `conv=notrunc`. -/
def dd (input : List UInt8) (bs count seek : ℕ) (disk : Disk) : Disk := fun b => .ofFn fun i =>
  if bs * seek ≤ 512 * b + i ∧ 512 * b + i < bs * seek + min (bs * count) input.length then
    input.getD (512 * b + i - bs * seek) 0
  else (disk b).get i

/-- The grab on a drive. -/
def install (s : Stage1) (stage2 : List UInt8) (disk : Disk) : Disk :=
  dd stage2 512 63 1 (dd s.bin 1 (512 - 2 - 16 * 4) 0 disk)

section Install

variable {s : Stage1} {stage2 : List UInt8} {disk : Disk} {b i : ℕ}

/-- The bytes of a block that `dd` has written to. -/
theorem get_dd {input : List UInt8} {bs count seek : ℕ} (hi : i < 512) :
    (dd input bs count seek disk b).get i =
    if bs * seek ≤ 512 * b + i ∧ 512 * b + i < bs * seek + min (bs * count) input.length then
      input.getD (512 * b + i - bs * seek) 0
    else (disk b).get i := by
  rw [dd, Block.get_ofFn _ hi]

/-- The first stage fills a sector. -/
theorem length_bin (s : Stage1) : s.bin.length = 512 := by
  have hfits := s.fits
  have hdata : s.data.length = 46 := rfl
  simp only [bin, List.length_append, List.length_replicate, List.length_cons, List.length_nil, hdata]
  omega

/-- The code of the first stage is installed in front of the partition table. -/
theorem install_stage1 (hi : i < 446) : (install s stage2 disk 0).get i = s.bin.getD i 0 := by
  rw [install, get_dd (by omega), if_neg (by omega), get_dd (by omega), length_bin, if_pos (by omega)]
  congr 1
  omega

/-- The second stage is installed from sector 1 on. -/
theorem install_stage2 (s : Stage1) (disk : Disk) (hi : i < stage2.length) (hlt : i < 63 * 512) :
    (install s stage2 disk (1 + i / 512)).get (i % 512) = stage2[i] := by
  have hmod : i % 512 < 512 := Nat.mod_lt _ (by decide)
  have hindex : 512 * (1 + i / 512) + i % 512 - 512 * 1 = i := by omega
  rw [install, get_dd hmod, if_pos (by omega), hindex, List.getD_eq_getElem _ _ hi]

/-- Behind the image the 63 sectors are left as they are. -/
theorem install_gap (s : Stage1) (disk : Disk) (hi : stage2.length ≤ i) :
    (install s stage2 disk (1 + i / 512)).get (i % 512) = (disk (1 + i / 512)).get (i % 512) := by
  have hmod : i % 512 < 512 := Nat.mod_lt _ (by decide)
  rw [install, get_dd hmod, if_neg (by omega), get_dd hmod, if_neg (by omega)]

end Install

/-! ## The BIOS and the drive -/

/-- The BIOS has this drive with the number `dl`, and reads within a track. -/
def Stage1.Bios.Serves (bios : Bios) (dl : UInt8) (d : Drive) : Prop :=
  ∀ ch dh cl al : UInt8, ch.toNat < d.cylinders → dh.toNat < d.heads → 1 ≤ cl.toNat →
    cl.toNat + al.toNat ≤ 64 →
    ∃ mem, bios.sectors dl ch dh cl al = some mem ∧ ∀ i < 512 * al.toNat,
      mem i = (d.sectors ((ch.toNat * d.heads + dh.toNat) * 63 + (cl.toNat - 1) + i / 512)).get (i % 512)

/-- What a BIOS has for the first stage: it has loaded the first sector of the drive, the keyboard
controller is ready, and the parts of the memory map fit the buffer and the space for them. -/
structure Stage1.Bios.Boots (bios : Bios) (dl : UInt8) (d : Drive) (l : List (List UInt8))
    (mem : Memory) : Prop where
  serves : bios.Serves dl d
  loaded : ∀ i < 512, mem (0x7c00 + i) = (d.sectors 0).get i
  ready : ∀ i < 3, bios.status i &&& 2 = 0
  buffer : ∀ c, (bios.smap c).bytes.length ≤ 24
  map : bios.Lists 0 l
  room : l.length ≤ 2730

/-- The first stage of an installed boot loader brings the second one to address 0, and the rest of
the 63 sectors behind it. -/
theorem Stage1.Bios.Boots.stage2 {s : Stage1} {stage2 : List UInt8} {disk : Disk} {bios : Bios}
    {dx : UInt16} {d : Drive} {l : List (List UInt8)} {mem : Memory} (h : bios.Boots dx.toUInt8 d l mem)
    (hdisk : d.sectors = install s stage2 disk)
    (hfits : stage2.length ≤ 63 * 512) (hcylinders : 0 < d.cylinders) (hheads : 2 ≤ d.heads) :
    ∃ e, (∀ fuel ≥ l.length, s.start bios fuel dx mem = .ok e) ∧ e.cs = wide 0 true ∧
      e.ds = wide 0 false ∧ e.eip = 0 ∧
      e.arg 0 = bios.pci.toNat ∧ e.arg 1 = 0x80000 ∧ e.arg 2 = l.length ∧
      (∀ (i : ℕ) (hi : i < l.length) (j : ℕ) (hj : j < l[i].length),
        e.mem (0x80000 + 24 * i + j) = l[i][j]) ∧
      (∀ (i : ℕ) (hi : i < stage2.length), e.mem i = stage2[i]) ∧
      ∀ i, stage2.length ≤ i → i < 63 * 512 → e.mem i = (disk (1 + i / 512)).get (i % 512) := by
  have hloaded : s.LoadedAt 0x7c00 mem := loadedAt_of_bin fun i hi => by
    rw [h.loaded i (by omega), hdisk, install_stage1 hi]
  obtain ⟨sectors, hsectors, hmany⟩ :=
    h.serves 0 0 2 62 hcylinders (Nat.zero_lt_of_lt hheads) (by decide)
    (by decide)
  obtain ⟨sector, hsector, hone⟩ := h.serves 0 1 1 1 hcylinders hheads (by decide) (by decide)
  obtain ⟨e, he, hrun⟩ := start_of_answers hloaded h.buffer ⟨h.ready, hsectors, hsector, h.map⟩ h.room
  suffices hread : ∀ i < 63 * 512, e.mem i = (install s stage2 disk (1 + i / 512)).get (i % 512) by
    refine ⟨e, hrun, he.cs, he.ds, he.eip, he.pcimod, he.memMap, he.mapsz, he.entries, fun i hi => ?_,
      fun i hlow hi => ?_⟩
    · rw [hread i (by omega), install_stage2 s disk hi (by omega)]
    · rw [hread i hi, install_gap s disk hlow]
  intro i hi
  rw [← hdisk]
  by_cases hlow : i < 62 * 512
  · have hblock : (UInt8.toNat 0 * d.heads + UInt8.toNat 0) * 63 + (UInt8.toNat 2 - 1) + i / 512 =
        1 + i / 512 := by
      rw [show UInt8.toNat 0 = 0 from rfl, show UInt8.toNat 2 = 2 from rfl]
      omega
    rw [he.image i hlow, hmany i hlow, hblock]
  · obtain ⟨j, rfl⟩ := Nat.exists_eq_add_of_le (Nat.le_of_not_lt hlow)
    have hj : j < 512 := by omega
    have hblock : (UInt8.toNat 0 * d.heads + UInt8.toNat 1) * 63 + (UInt8.toNat 1 - 1) + j / 512 =
        1 + (62 * 512 + j) / 512 := by
      rw [show UInt8.toNat 0 = 0 from rfl, show UInt8.toNat 1 = 1 from rfl]
      omega
    rw [he.last j hj, hone j hj, hblock]
    congr 1
    omega

end Hobby386
