import Hobby386.Grab.IdeDrives
import Hobby386.Grab.PciTable
import Hobby386.Grab.PromptBoot
import Hobby386.Mkfs.Main

/-!
# From the disk to the loaded system

The second stage scans the buses, panics unless the hard disk controller is there and in
compatibility mode, looks for the drives and starts the shell, which boots from the first partition
of the first drive or lets the user type. Here the disk that the program `mkfs` has prepared is
behind the controller, and the scan codes lead to the bytes of the host file in memory.
-/

namespace Hobby386

open Polling Fuel Runs

/-! ## The second stage -/

/-- The header is that of a hard disk controller. -/
abbrev PciHeader.IsController (h : PciHeader) : Prop := h.vendorid = 0x8086 ∧ h.deviceid = 0x7010

/-- Both channels of the controller are in compatibility mode. -/
def PciHeader.Compatible (h : PciHeader) : Prop :=
  h.progif &&& (0x01 : BitVec 8) = 0 ∧ h.progif &&& (0x04 : BitVec 8) = 0

instance (h : PciHeader) : Decidable h.Compatible := inferInstanceAs (Decidable (_ ∧ _))

section Shell

variable {m : Machine} {x y : Fin 4} {p : Partition} {fs : Fs} {n : ℕ} {D : List UInt8}

/-- Where the drives are the same, so are the partitions. -/
theorem Machine.CarriesAt.congr {m' : Machine} (h : m.CarriesAt x y p fs)
    (hdrives : m'.drives = m.drives) :
    m'.CarriesAt x y p fs := by
  obtain ⟨hexist, hmsdos, hpart, hcarried⟩ := h
  exact ⟨by rwa [hdrives], by rwa [hdrives], by rwa [hdrives], by rwa [hdrives]⟩

end Shell

/-! ## The whole way -/

/-- `ide_read_lba` with a drive selected. -/
def readSelected (r : Ide × Ata) (x b : ℕ) (buf : Block) (fuel : ℕ) :
    Except IdeHalt ((ℤ × Block) × (Ide × Ata)) :=
  DiskCall.exec fuel (.read (int32 b) buf) ({ r.1 with driveSel := x }, r.2)

/-- The arrays are what the driver reads: a read that returns 0 delivers the block of the array. Of
the blocks that cannot be read they say nothing. -/
def DriverReads (r : Ide × Ata) (disks : ℕ → Disk) : Prop :=
  ∀ x < 4, ∀ b buf blk, Ends (readSelected r x b buf) (fun r' => r'.1 = (0, blk)) → disks x b = blk

/-- The machine of the shell when the second stage has come to it, with the arrays that the driver
reads. -/
def Machine.started (r : Ide × Ata) (disks : ℕ → Disk) : Machine where
  rootdrive := -1
  rootpartition := -1
  drives x := ⟨(r.1.drives x).exist, (r.1.drives x).msdos, (r.1.drives x).partitions, disks x⟩
  driveSel := r.1.driveSel
  init := false
  su := Block.zero.su
  printed := []

/-- The buses form a tree with room in the table, and there are hard disk controllers in
compatibility mode and in no other. -/
structure Pci.Bootable (p : Pci) : Prop where
  tree : p.IsBusTree
  room : {f | p.Reached f}.encard ≤ npcidevMax
  controller : ∃ f, p.Reached f ∧ (p.record f).hdr.IsController
  compatible : ∀ f, p.Reached f → (p.record f).hdr.IsController → (p.record f).hdr.Compatible

section Way

variable {p : Pci} {a : Ata} {x : Fin 4} {d : Drive}

/-- With the drive selected, the driver reads its blocks. -/
theorem Ata.Recorded.reads {r : Ide × Ata} (h : a.Recorded [] r)
    (hfits : ∀ n < 4, ∀ d, a.drives n = some d → d.Fits ∧ d.cylinders ≤ 1024)
    (hd : a.drives x = some d) {b : ℕ} (hb : b < d.cylinders * d.heads * 63) (buf : Block) :
    Ends (readSelected r x b buf) fun r' => r'.1 = (0, d.sectors b) := by
  obtain ⟨hfit, hcylinders⟩ := hfits x x.isLt d hd
  have hsectors : d.cylinders * d.heads ≤ 1024 * 16 := Nat.mul_le_mul hcylinders hfit.heads.2
  have hshows : (a.store x).Shows ({ r.1 with driveSel := x }, r.2) :=
    ⟨Ata.store_congr h.drives x, x.isLt, (h.shows hfits).entries⟩
  have hsize : (a.store x).size x = some (d.cylinders * d.heads * 63) := by
    simp only [Ata.store, hd]
    rfl
  have haccepts : (a.store x).Accepts (.read b buf) :=
    ⟨_, hsize, Int.natCast_nonneg b, by exact_mod_cast hb⟩
  have hread := hshows.read haccepts
  rw [← int32_of_lt (show b < 2147483648 by omega)] at hread
  refine hread.mono fun r' hr' => ?_
  rw [hr'.1, int32_of_lt (by omega)]
  simp only [Ata.store, Ata.block, hd, Int.toNat_natCast]
  rfl

/-- What the shell knows of a drive. -/
theorem Ata.Recorded.drive {r : Ide × Ata} (h : a.Recorded [] r)
    (hfits : ∀ n < 4, ∀ d, a.drives n = some d → d.Fits ∧ d.cylinders ≤ 1024) (hd : a.drives x = some d)
    {disks : ℕ → Disk} (hdisks : DriverReads r disks) :
    ((Machine.started r disks).drives x).exist = true ∧
      (((Machine.started r disks).drives x).msdos = true ↔ Mkfs.Signed (d.sectors 0)) ∧
      (((Machine.started r disks).drives x).msdos = true → ∀ i < 4,
        ((Machine.started r disks).drives x).partitions i = (d.sectors 0).partition i) ∧
      ∀ b < d.cylinders * d.heads * 63, ((Machine.started r disks).drives x).disk b = d.sectors b := by
  have hentry : r.1.drives x = .found (some d) := by
    rw [h.found x x.isLt List.not_mem_nil, hd]
  obtain ⟨hexist, -, -, hmsdos, hpartitions⟩ := DriveEntry.found_some d
  simp only [Machine.started, hentry]
  exact ⟨hexist, hmsdos, hpartitions, fun b hb => hdisks x x.isLt b .zero _ (h.reads hfits hd hb .zero)⟩

end Way

end Hobby386
