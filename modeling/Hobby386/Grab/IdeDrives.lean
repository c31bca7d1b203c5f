import Hobby386.Grab.Ide

/-!
# Drives behind the ports

Two controllers with up to two drives each, which hold a block in every sector. A controller takes a
command with its registers, says for a while that it is busy, and then has failed or transfers the
sector that the command is for. On them the driver finds the geometry of every drive, and its reads
and writes are those of an array of blocks for each drive.
-/

namespace Hobby386

open Fuel Runs

/-! ## The controllers and their drives -/

/-- A drive, with 63 sectors on each track. The sectors are numbered as they follow one another. -/
structure Drive where
  cylinders : ℕ
  heads : ℕ
  sectors : ℕ → Block

/-- The sector of the drive that a command is for. -/
def Drive.address (d : Drive) (cmd : Command) : Option ℕ :=
  if cmd.cylinder < d.cylinders ∧ cmd.head < d.heads ∧ 1 ≤ cmd.sector.toNat ∧ cmd.sector.toNat ≤ 63 then
    some ((cmd.cylinder * d.heads + cmd.head) * 63 + (cmd.sector.toNat - 1))
  else none

/-- Drive `n` of the four that the register `sel` of a channel selects. -/
def selectedDrive (base : ℕ) (sel : UInt8) : ℕ :=
  (if base = primaryBase then 0 else 2) + sel.toNat / 16 % 2

/-- The controllers. For each channel: for how many more polls it says that it is busy, whether its
last command has failed, and the drive and the sector that it is to transfer. `delay` says how long
the work takes that is begun as number `begun`. -/
structure Ata where
  regs : ℕ → UInt8
  wait : ℕ → ℕ
  failed : ℕ → Bool
  transfer : ℕ → Option (ℕ × ℕ)
  drives : ℕ → Option Drive
  delay : ℕ → ℕ
  begun : ℕ
  printed : List (String × List ℤ)

namespace Ata

/-- The drive that is selected on a channel. -/
def selected (a : Ata) (base : ℕ) : ℕ := selectedDrive base (a.regs (base + portSel))

/-- The command that a channel receives. -/
def received (a : Ata) (base : ℕ) (opcode : UInt8) : Command where
  base := base
  opcode := opcode
  seccnt := a.regs (base + portSeccnt)
  sector := a.regs (base + portSector)
  syllow := a.regs (base + portSyllow)
  sylhigh := a.regs (base + portSylhigh)
  sel := a.regs (base + portSel)

/-- A channel begins to work. -/
def begin (a : Ata) (base : ℕ) : Ata :=
  { a with wait := Function.update a.wait base (a.delay a.begun), begun := a.begun + 1 }

/-- The channel looks for the sector of a command. When it is to be written, the data can be sent at
once. -/
def execute (a : Ata) (cmd : Command) : Ata :=
  let target := (a.drives (selectedDrive cmd.base cmd.sel)).bind fun d =>
    (d.address cmd).map (selectedDrive cmd.base cmd.sel, ·)
  let a := { a with
    failed := Function.update a.failed cmd.base target.isNone
    transfer := Function.update a.transfer cmd.base target }
  if cmd.opcode = cmdWrsect then a else a.begin cmd.base

/-- The status of a channel. Without the selected drive nothing answers. -/
def status (a : Ata) (base : ℕ) : UInt8 × Ata :=
  if (a.drives (a.selected base)).isNone then (0, a)
  else if a.wait base = 0 then
    (if a.failed base then statusReady ||| statusSeek ||| statusErr else statusReady ||| statusSeek, a)
  else (statusBusy, { a with wait := Function.update a.wait base (a.wait base - 1) })

/-- `inb`. -/
def inb (port : ℕ) (a : Ata) : UInt8 × Ata :=
  if port = primaryBase + portCommand then a.status primaryBase
  else if port = secondaryBase + portCommand then a.status secondaryBase
  else (a.regs port, a)

/-- `outb`. -/
def outb (data : UInt8) (port : ℕ) (a : Ata) : Ata :=
  if port = primaryBase + portCommand then a.execute (a.received primaryBase data)
  else if port = secondaryBase + portCommand then a.execute (a.received secondaryBase data)
  else { a with regs := Function.update a.regs port data }

/-- The block in a sector. -/
def block (a : Ata) (n lba : ℕ) : Block := ((a.drives n).map fun d => d.sectors lba).getD .zero

/-- The drives after a block has been put in a sector. -/
def stored (a : Ata) (n lba : ℕ) (b : Block) : ℕ → Option Drive :=
  Function.update a.drives n
    ((a.drives n).map fun d => { d with sectors := Function.update d.sectors lba b })

/-- `insl` of one sector. -/
def insl (port : ℕ) (a : Ata) : Block × Ata :=
  match a.transfer port with
  | none => (.zero, a)
  | some (n, lba) => (a.block n lba, { a with transfer := Function.update a.transfer port none })

/-- `outsl` of one sector. -/
def outsl (buf : Block) (port : ℕ) (a : Ata) : Ata :=
  match a.transfer port with
  | none => a
  | some (n, lba) =>
    { a with drives := a.stored n lba buf, transfer := Function.update a.transfer port none }.begin port

/-- The machine with these controllers. -/
def bus : IdeBus Ata where
  inb := inb
  outb := outb
  insl := insl
  outsl := outsl
  printf fmt args a := { a with printed := a.printed ++ [(fmt, args)] }

end Ata

/-! ## One command -/

variable {a a' : Ata} {n : ℕ} {d : Drive}

/-- A byte sent to a register other than the command port is stored there. -/
theorem Ata.outb_reg (a : Ata) (data : UInt8) (n : ℕ) {reg : ℕ} (hreg : reg < portCommand) :
    Ata.bus.outb data (channelOf n + reg) a =
      { a with regs := Function.update a.regs (channelOf n + reg) data } := by
  have hseven : reg < 7 := hreg
  change Ata.outb _ _ _ = _
  rw [Ata.outb]
  rcases channelOf_cases n with hbase | hbase
  · rw [hbase, if_neg (show ¬0x1f0 + reg = 0x1f0 + 7 by omega),
      if_neg (show ¬0x1f0 + reg = 0x170 + 7 by omega)]
  · rw [hbase, if_neg (show ¬0x170 + reg = 0x1f0 + 7 by omega),
      if_neg (show ¬0x170 + reg = 0x170 + 7 by omega)]

/-- A byte sent to the command port is executed. -/
theorem Ata.outb_command (a : Ata) (data : UInt8) (n : ℕ) :
    Ata.bus.outb data (channelOf n + portCommand) a = a.execute (a.received (channelOf n) data) := by
  change Ata.outb _ _ _ = _
  rw [Ata.outb]
  rcases channelOf_cases n with hbase | hbase
  · rw [hbase, if_pos rfl]
  · rw [hbase, if_neg (by decide), if_pos rfl]

/-- The status port of a channel. -/
theorem Ata.inb_status (a : Ata) (n : ℕ) : Ata.bus.inb (channelOf n + portCommand) a =
    a.status (channelOf n) := by
  change Ata.inb _ _ = _
  rw [Ata.inb]
  rcases channelOf_cases n with hbase | hbase
  · rw [hbase, if_pos rfl]
  · rw [hbase, if_neg (by decide), if_pos rfl]

/-- The command that the driver issues arrives with the registers that it has set. -/
theorem Ata.issue_eq (a : Ata) (n : ℕ) (c h s : ℤ) (w : Bool) :
    ∃ regs, regs (channelOf n + portSel) = selReg n h ∧
      Ata.bus.issue n c h s (if w then cmdWrsect else cmdRdsect) a =
        { a with regs := regs }.execute (.request n c h s w) := by
  rw [IdeBus.issue, portWrites, Ata.outb_command, Ata.outb_reg _ _ _ (by decide),
    Ata.outb_reg _ _ _ (by decide), Ata.outb_reg _ _ _ (by decide), Ata.outb_reg _ _ _ (by decide),
    Ata.outb_reg _ _ _ (by decide)]
  refine ⟨_, Function.update_self _ _ _, congrArg _ ?_⟩
  simp [Ata.received, Command.request]

/-- The fields of a command are the coordinates, as far as they fit in. -/
theorem request_fields (n : ℕ) (c h s : ℤ) (w : Bool) :
    (Command.request n c h s w).cylinder = (c % 65536).toNat ∧
      (Command.request n c h s w).head = (h % 16).toNat ∧
      (Command.request n c h s w).sector.toNat = (s % 256).toNat := by
  have hlow : ∀ d < 2, ∀ n < 16,
      (((0xa0 : UInt8) ||| UInt8.ofNat (d <<< 4) ||| UInt8.ofNat n) &&& 0x0f).toNat = n := by
    decide
  refine ⟨?_, ?_, ?_⟩
  · simp only [Command.request, Command.cylinder, syllowReg, sylhighReg, UInt8.toNat_ofNat',
      Nat.shiftRight_eq_div_pow]
    omega
  · simp only [Command.request, Command.head, selReg]
    exact hlow _ (Nat.mod_lt _ (by decide)) _ (by omega)
  · simp only [Command.request, sectorReg, UInt8.toNat_ofNat']
    omega

/-- The command selects the drive that it is for. -/
theorem selectedDrive_selReg (hn : n < 4) (h : ℤ) : selectedDrive (channelOf n) (selReg n h) = n := by
  have hbit : ∀ d < 2, ∀ n < 16,
      ((0xa0 : UInt8) ||| UInt8.ofNat (d <<< 4) ||| UInt8.ofNat n).toNat / 16 % 2 = d := by
    decide
  rw [selectedDrive, selReg, hbit _ (Nat.mod_lt _ (by decide)) _ (by omega)]
  by_cases hlow : n < 2
  · rw [channelOf, if_pos hlow, if_pos rfl]
    omega
  · rw [channelOf, if_neg hlow, if_neg (by decide)]
    omega

/-- The status of a missing drive is zero. -/
theorem Ata.status_absent {base : ℕ} (h : a.drives (a.selected base) = none) :
    a.status base = (0, a) := by
  rw [Ata.status, h]
  rfl

/-- The status of a channel that has done its work. -/
def Ata.outcome (a : Ata) (base : ℕ) : UInt8 :=
  if a.failed base then statusReady ||| statusSeek ||| statusErr else statusReady ||| statusSeek

/-- Behind the wait a drive shows the outcome of its command. -/
theorem Ata.status_ready {base : ℕ} (h : a.drives (a.selected base) = some d) (hwait : a.wait base = 0) :
    a.status base = (a.outcome base, a) := by
  rw [Ata.status, h, if_pos hwait]
  rfl

/-- During the wait a drive is busy, and the wait gets shorter. -/
theorem Ata.status_busy {base : ℕ} (h : a.drives (a.selected base) = some d) (hwait : a.wait base ≠ 0) :
    a.status base = (statusBusy, { a with wait := Function.update a.wait base (a.wait base - 1) }) := by
  rw [Ata.status, h, if_neg hwait]
  rfl

/-- An outcome is neither busy nor not ready. -/
theorem Ata.busy_outcome (a : Ata) (base : ℕ) :
    busy (a.outcome base) = false ∧ notReady (a.outcome base) = false := by
  rw [Ata.outcome]
  split <;> decide

/-- The driver waits until the channel has done its work. -/
theorem Ata.waitWhile_ready (n : ℕ) (h : a.drives (a.selected (channelOf n)) = some d) :
    Ends (fun fuel => Ata.bus.waitWhile (channelOf n) busy fuel a) fun r =>
      r = (a.outcome (channelOf n), { a with wait := Function.update a.wait (channelOf n) 0 }) := by
  generalize hleft : a.wait (channelOf n) = left
  induction left generalizing a with
  | zero =>
    have hstatus := (Ata.inb_status a n).trans (Ata.status_ready h hleft)
    refine (IdeBus.waitWhile_stop (by rw [hstatus]; exact (a.busy_outcome _).1)).mono fun r hr => ?_
    rw [hr, hstatus, ← hleft, Function.update_eq_self]
  | succ left ih =>
    have hbusy : busy statusBusy = true := by decide
    have hstatus := (Ata.inb_status a n).trans (Ata.status_busy h (by omega))
    refine IdeBus.waitWhile_more (by rw [hstatus]; exact hbusy) ?_
    rw [hstatus]
    have hnext := ih
      (a := { a with wait := Function.update a.wait (channelOf n) (a.wait (channelOf n) - 1) }) h
      (by simp [hleft])
    refine hnext.mono fun r hr => ?_
    rw [hr]
    simp [Ata.outcome]

/-- Whatever drive is selected, waiting changes nothing but the time. -/
theorem Ata.waitWhile_returns (a : Ata) (n : ℕ) :
    Ends (fun fuel => Ata.bus.waitWhile (channelOf n) busy fuel a) fun r => ∃ wait, r.2 =
      { a with wait := wait } := by
  cases h : a.drives (a.selected (channelOf n)) with
  | none =>
    have hidle : busy 0 = false := by decide
    have hstatus := (Ata.inb_status a n).trans (Ata.status_absent h)
    refine (IdeBus.waitWhile_stop (by rw [hstatus]; exact hidle)).mono fun r hr => ⟨a.wait, ?_⟩
    rw [hr, hstatus]
  | some d => exact (Ata.waitWhile_ready n h).mono fun r hr => ⟨_, congrArg Prod.snd hr⟩

/-- The command finds its sector. -/
theorem Ata.execute_eq {cmd : Command} (hdrive : a.drives (selectedDrive cmd.base cmd.sel) = some d) :
    a.execute cmd =
      let target := (d.address cmd).map (selectedDrive cmd.base cmd.sel, ·)
      let e := { a with
        failed := Function.update a.failed cmd.base target.isNone
        transfer := Function.update a.transfer cmd.base target }
      if cmd.opcode = cmdWrsect then e else e.begin cmd.base := by
  rw [Ata.execute, hdrive]
  rfl

/-- A sector that is written. -/
theorem Ata.rwAbs_write (hn : n < 4) (hdrive : a.drives n = some d) (c h s : ℤ) (buf : Block) :
    Ends (fun fuel => Ata.bus.rwAbs fuel n c h s buf true a) fun r => r.1 = 0 ∧ r.2.1 = buf ∧
      r.2.2.drives = match d.address (.request n c h s true) with
        | none => a.drives
        | some lba => a.stored n lba buf := by
  refine (a.waitWhile_returns n).bind fun r ⟨wait, hr⟩ => ?_
  obtain ⟨regs, -, hissue⟩ := r.2.issue_eq n c h s true
  have hselected : selectedDrive (Command.request n c h s true).base
      (Command.request n c h s true).sel = n :=
    selectedDrive_selReg hn h
  refine .ok ?_
  rw [if_pos rfl] at hissue
  rw [hissue, Ata.execute_eq (d := d) (by rw [hselected, hr]; exact hdrive), hselected, hr]
  change _ ∧ _ ∧ (Ata.outsl _ _ _).drives = _
  rw [Ata.outsl]
  cases d.address (.request n c h s true) with
  | none => simp [Command.request]
  | some lba => simp [Command.request, Ata.begin, Ata.stored]

/-- A sector that is read. -/
theorem Ata.rwAbs_read (hn : n < 4) (hdrive : a.drives n = some d) (c h s : ℤ) (buf : Block) :
    Ends (fun fuel => Ata.bus.rwAbs fuel n c h s buf false a) fun r =>
      r.2.2.drives = a.drives ∧ (r.1, r.2.1) = match d.address (.request n c h s false) with
        | none => (-1, buf)
        | some lba => (0, d.sectors lba) := by
  refine (a.waitWhile_returns n).bind fun r ⟨wait, hr⟩ => ?_
  obtain ⟨regs, hsel, hissue⟩ := r.2.issue_eq n c h s false
  have hselected : selectedDrive (Command.request n c h s false).base
      (Command.request n c h s false).sel = n :=
    selectedDrive_selReg hn h
  simp only [Bool.false_eq_true, if_false] at hissue ⊢
  obtain ⟨e, he⟩ : ∃ e, { r.2 with regs := regs }.execute (.request n c h s false) = e := ⟨_, rfl⟩
  rw [hissue, he]
  rw [Ata.execute_eq (d := d) (by rw [hselected, hr]; exact hdrive), hselected, hr] at he
  have hdrives : e.drives = a.drives := by rw [← he]; rfl
  have hpresent : e.drives (e.selected (channelOf n)) = some d := by
    have hregs : e.selected (channelOf n) = selectedDrive (channelOf n) (selReg n h) := by
      rw [← he, ← hsel]
      rfl
    rw [hdrives, hregs, selectedDrive_selReg hn h, hdrive]
  have htransfer : e.transfer (channelOf n) = (d.address (.request n c h s false)).map (n, ·) := by
    rw [← he]
    exact Function.update_self _ _ _
  have hfailed : e.failed (channelOf n) = ((d.address (.request n c h s false)).map (n, ·)).isNone := by
    rw [← he]
    exact Function.update_self _ _ _
  refine (Ata.waitWhile_ready n hpresent).bind fun r hr => ?_
  subst hr
  cases haddress : d.address (.request n c h s false) with
  | none =>
    have herr : e.outcome (channelOf n) &&& statusErr ≠ 0 := by
      rw [Ata.outcome, hfailed, haddress, Option.map_none, Option.isNone_none, if_pos rfl]
      decide
    simp only [if_pos herr]
    exact .ok ⟨hdrives, rfl⟩
  | some lba =>
    have herr : ¬e.outcome (channelOf n) &&& statusErr ≠ 0 := by
      rw [Ata.outcome, hfailed, haddress, Option.map_some, Option.isNone_some, if_neg Bool.false_ne_true]
      decide
    simp only [if_neg herr]
    have hstatus := (Ata.inb_status { e with wait := Function.update e.wait (channelOf n) 0 } n).trans
      (Ata.status_ready hpresent (Function.update_self _ _ _))
    refine (IdeBus.waitWhile_stop (by rw [hstatus]; exact (Ata.busy_outcome _ _).2)).bind
      fun r hr => .ok ?_
    rw [hr, hstatus]
    change (Ata.insl _ _).2.drives = _ ∧ ((0 : ℤ), (Ata.insl _ _).1) = _
    rw [Ata.insl]
    simp only [htransfer, haddress, Option.map_some]
    refine ⟨hdrives, ?_⟩
    rw [Ata.block, hdrives, hdrive]
    rfl

/-! ## The start of the driver -/

/-- A drive with sectors, and with no more heads than a command can name. -/
structure Drive.Fits (d : Drive) : Prop where
  cylinders : 0 < d.cylinders
  heads : 0 < d.heads ∧ d.heads ≤ 16

/-- The geometry that is recorded for a drive. It has to have at most 1024 cylinders. -/
def Drive.geometry (d : Drive) : ℤ × ℤ := if 1024 < d.cylinders then (-1, -1) else (d.cylinders, d.heads)

/-- The entry that is recorded for the drive in a slot. -/
def DriveEntry.found : Option Drive → DriveEntry
  | none => Ide.zero.drives 0
  | some d => (Ide.zero.drives 0).record (d.sectors 0) d.geometry

/-- What the entry for a drive says. -/
theorem DriveEntry.found_some (d : Drive) : (DriveEntry.found (some d)).exist = true ∧
    ((DriveEntry.found (some d)).maxC = if d.cylinders ≤ 1024 then (d.cylinders : ℤ) else -1) ∧
    ((DriveEntry.found (some d)).maxH = if d.cylinders ≤ 1024 then (d.heads : ℤ) else -1) ∧
    ((DriveEntry.found (some d)).msdos = true ↔ LittleEndian.value (d.sectors 0).get 2 510 = 0xaa55) ∧
    ((DriveEntry.found (some d)).msdos = true →
      ∀ i < 4, (DriveEntry.found (some d)).partitions i = (d.sectors 0).partition i) := by
  have hgeometry : d.geometry = if d.cylinders ≤ 1024 then ((d.cylinders, d.heads) : ℤ × ℤ) else
      (-1, -1) := by
    rw [Drive.geometry]
    by_cases hlarge : 1024 < d.cylinders
    · rw [if_pos hlarge, if_neg (by omega)]
    · rw [if_neg hlarge, if_pos (by omega)]
  refine ⟨rfl, ?_, ?_, ?_⟩
  · change d.geometry.1 = _
    rw [hgeometry, apply_ite Prod.fst]
  · change d.geometry.2 = _
    rw [hgeometry, apply_ite Prod.snd]
  · rw [DriveEntry.found, DriveEntry.record]
    by_cases hsignature : LittleEndian.value (d.sectors 0).get 2 510 = 0xaa55
    · rw [if_pos hsignature]
      exact ⟨⟨fun _ => hsignature, fun _ => rfl⟩, fun _ i hi => if_pos hi⟩
    · rw [if_neg hsignature]
      exact ⟨⟨fun h => absurd h Bool.false_ne_true, fun h => absurd h hsignature⟩,
        fun h => absurd h Bool.false_ne_true⟩

/-- The sectors that the driver probes. -/
theorem Drive.address_probe (d : Drive) (n : ℕ) {c h : ℕ} (hc : c < 65536) (hh : h < 16) :
    d.address (.request n c h 1 false) = if c < d.cylinders ∧ h < d.heads then
      some ((c * d.heads + h) * 63) else none := by
  obtain ⟨hcylinder, hhead, hsector⟩ := request_fields n c h 1 false
  rw [Drive.address, hcylinder, hhead, hsector, Int.emod_eq_of_lt (by omega) (by omega),
    Int.emod_eq_of_lt (by omega) (by omega), Int.toNat_natCast, Int.toNat_natCast]
  simp

/-- The sector of a drive that the probe reads. -/
theorem Ata.read_probe (hn : n < 4) (hdrive : a.drives n = some d) {c h : ℕ} (hc : c < 65536)
    (hh : h < 16) (buf : Block) : Ends (fun fuel => Ata.bus.rwAbs fuel n c h 1 buf false a) fun r =>
    r.2.2.drives = a.drives ∧
      if c < d.cylinders ∧ h < d.heads then
      r.1 = 0 ∧ r.2.1 = d.sectors ((c * d.heads + h) * 63) else r.1 = -1 := by
  refine (Ata.rwAbs_read hn hdrive c h 1 buf).mono fun r ⟨hdrives, hr⟩ => ⟨hdrives, ?_⟩
  rw [d.address_probe n hc hh] at hr
  split
  · rw [if_pos ‹_›] at hr
    exact Prod.mk.inj hr
  · rw [if_neg ‹_›] at hr
    exact (Prod.mk.inj hr).1

/-- A drive that is there answers at once, and one that is not never does. -/
theorem Ata.answers_eq (a : Ata) (n : ℕ) {retryCnt : ℕ} (hretry : 0 < retryCnt) :
    (Ata.bus.answers (channelOf n) retryCnt a).1 = (a.drives (a.selected (channelOf n))).isSome ∧
      (Ata.bus.answers (channelOf n) retryCnt a).2.drives = a.drives := by
  obtain ⟨retryCnt, rfl⟩ := Nat.exists_eq_add_of_le' hretry
  cases h : a.drives (a.selected (channelOf n)) with
  | none =>
    have hnever : ∀ retryCnt, Ata.bus.answers (channelOf n) retryCnt a = (false, a) := by
      intro retryCnt
      induction retryCnt with
      | zero => rfl
      | succ retryCnt ih => rw [IdeBus.answers, Ata.inb_status, Ata.status_absent h, if_pos rfl, ih]
    rw [hnever]
    exact ⟨rfl, rfl⟩
  | some d =>
    rw [IdeBus.answers, Ata.inb_status]
    by_cases hwait : a.wait (channelOf n) = 0
    · have hready : a.outcome (channelOf n) ≠ 0 := by
        rw [Ata.outcome]
        split <;> decide
      rw [Ata.status_ready h hwait, if_neg hready]
      exact ⟨rfl, rfl⟩
    · rw [Ata.status_busy h hwait, if_neg (show statusBusy ≠ 0 by decide)]
      exact ⟨rfl, rfl⟩

/-- One turn of the loop of `ide_init` records the drive in its slot. -/
theorem Ata.initDrive_returns (hn : n < 4) (hfits : ∀ d, a.drives n = some d → d.Fits) (buf : Block)
    {ide : Ide} (hzero : ide.drives n = Ide.zero.drives 0) :
    Ends (fun fuel => Ata.bus.initDrive fuel buf ide n a) fun r => r.2.drives = a.drives ∧
      r.1 = { ide with drives := Function.update ide.drives n (.found (a.drives n)) } := by
  have hsel : ∀ n < 4, selectedDrive (channelOf n) (0xa0 ||| .ofNat ((n % 2) <<< 4)) = n := by decide
  obtain ⟨s, hs⟩ : ∃ s, Ata.bus.outb (0xa0 ||| .ofNat ((n % 2) <<< 4)) (channelOf n + portSel) a =
      s := ⟨_, rfl⟩
  have hreg := a.outb_reg (0xa0 ||| .ofNat ((n % 2) <<< 4)) n (show portSel < portCommand by decide)
  rw [hs] at hreg
  have hdrives : s.drives = a.drives := by rw [hreg]
  have hselected : s.selected (channelOf n) = n := by
    rw [Ata.selected, hreg]
    simp only [Function.update_self]
    exact hsel n hn
  obtain ⟨hpresent, hsame⟩ := s.answers_eq n (show 0 < 1000 by decide)
  rw [hselected, hdrives] at hpresent
  rw [hdrives] at hsame
  unfold IdeBus.initDrive
  simp only [hs]
  refine .branch (fun habsent => .ok ?_) fun hthere => ?_
  · rw [hpresent, Option.isSome_eq_false_iff, Option.isNone_iff_eq_none] at habsent
    rw [habsent]
    refine ⟨hsame, ?_⟩
    change ide = { ide with drives := Function.update ide.drives n (Ide.zero.drives 0) }
    rw [← hzero, Function.update_eq_self]
  · rw [hpresent, Bool.not_eq_false, Option.isSome_iff_exists] at hthere
    obtain ⟨d, hdrive⟩ := hthere
    obtain ⟨hcylinders, hheads, hlimit⟩ := hfits d hdrive
    have hread : ∀ c h buf (st : Ata), st.drives = a.drives → c < 65536 → h < 16 →
        Ends (fun fuel => Ata.bus.rwAbs fuel n (c : ℕ) (h : ℕ) 1 buf false st) fun r =>
        r.2.2.drives = a.drives ∧
          if c < d.cylinders ∧ h < d.heads then r.1 = 0 ∧ r.2.1 = d.sectors ((c * d.heads + h) * 63)
          else r.1 = -1 := by
      intro c h buf st hst hc hh
      have hprobe := Ata.read_probe hn (by rw [hst, hdrive]) hc hh buf
      rwa [hst] at hprobe
    refine (IdeBus.probe_returns (I := fun st => st.drives = a.drives) (N := min d.cylinders 1025)
      (fun m hm buf st hst => ?_) (fun buf st hst => ?_) (Nat.zero_le _) (by omega) buf hsame).bind
      fun rc ⟨hmaxC, hrc⟩ => ?_
    · refine (hread m 0 buf st hst (by omega) (by decide)).mono fun r ⟨hkept, hr⟩ => ⟨?_, hkept⟩
      rw [if_pos ⟨by omega, hheads⟩] at hr
      omega
    · refine (hread (min d.cylinders 1025) 0 buf st hst (by omega) (by decide)).mono
        fun r ⟨hkept, hr⟩ => ⟨hkept, ?_⟩
      split at hr <;> omega
    refine (IdeBus.probe_returns (I := fun st => st.drives = a.drives) (N := d.heads)
      (fun m hm buf st hst => ?_) (fun buf st hst => ?_) (Nat.zero_le _) (by omega) rc.2.1 hrc).bind
      fun rh ⟨hmaxH, hrh⟩ => ?_
    · refine (hread 0 m buf st hst (by decide) (by omega)).mono fun r ⟨hkept, hr⟩ => ⟨?_, hkept⟩
      rw [if_pos ⟨hcylinders, hm⟩] at hr
      omega
    · rcases Nat.eq_or_lt_of_le hlimit with hsixteen | hlt
      · have hkept := Ata.rwAbs_read hn (by rw [hst, hdrive]) 0 d.heads 1 buf
        exact hkept.mono fun r hr => ⟨hr.1.trans hst, .inl (by omega)⟩
      · refine (hread 0 d.heads buf st hst (by decide) hlt).mono fun r ⟨hkept, hr⟩ => ⟨hkept, .inr ?_⟩
        rw [if_neg (by omega)] at hr
        omega
    have hst : (if 1024 < rc.1 then Ata.bus.printf "failed to probe geometry" [] rh.2.2 else
        rh.2.2).drives =
        a.drives := by
      split
      · exact hrh
      · exact hrh
    refine (hread 0 0 rh.2.1 _ hst (by decide) (by decide)).bind fun rb ⟨hkept, hrb⟩ => .ok ⟨hkept, ?_⟩
    rw [if_pos ⟨hcylinders, hheads⟩] at hrb
    have hgeometry : (if 1024 < rc.1 then ((-1, -1) : ℤ × ℤ) else (rc.1, rh.1)) = d.geometry := by
      rw [Drive.geometry, hmaxC, hmaxH]
      by_cases hlarge : 1024 < d.cylinders
      · rw [if_pos hlarge, if_pos (by omega)]
      · rw [if_neg hlarge, if_neg (by omega), min_eq_left (by omega)]
    rw [hgeometry, hrb.2, hzero, hdrive, DriveEntry.found, Nat.zero_mul, Nat.add_zero, Nat.zero_mul]

/-- The loop of `ide_init` when the slots `l` are still to come. -/
structure Ata.Recorded (a : Ata) (l : List ℕ) (r : Ide × Ata) : Prop where
  slots : ∀ n ∈ l, n < 4
  nodup : l.Nodup
  drives : r.2.drives = a.drives
  driveSel : r.1.driveSel = 0
  zero : ∀ n ∈ l, r.1.drives n = Ide.zero.drives 0
  found : ∀ n < 4, n ∉ l → r.1.drives n = .found (a.drives n)

/-- `ide_init` leaves the drives as they are, and records them all. -/
theorem Ata.init_returns (a : Ata) (hfits : ∀ n < 4, ∀ d, a.drives n = some d → d.Fits)
    (stack : ℕ → Block) :
    Ends (fun fuel => Ata.bus.init fuel stack Ide.zero a) (a.Recorded []) := by
  have hstart : a.Recorded [0, 1, 2, 3] (Ide.zero, a) := by
    refine ⟨by decide, by decide, rfl, rfl, fun _ _ => rfl, fun n hn hout => absurd ?_ hout⟩
    simp only [List.mem_cons, List.not_mem_nil]
    omega
  refine Ends.foldlM a.Recorded (fun n l r h => ?_) [0, 1, 2, 3] hstart
  have hn := h.slots n (.head _)
  have hfresh := (List.nodup_cons.mp h.nodup).1
  refine (Ata.initDrive_returns hn (by rw [h.drives]; exact hfits n hn) (stack n)
    (h.zero n (.head _))).mono
    fun r' ⟨hdrives, hide⟩ => ?_
  refine ⟨fun m hm => h.slots m (.tail _ hm), (List.nodup_cons.mp h.nodup).2, hdrives.trans h.drives, ?_,
    fun m hm => ?_, fun m hm hout => ?_⟩
  · rw [hide]
    exact h.driveSel
  · have hne : m ≠ n := fun heq => hfresh (heq ▸ hm)
    rw [hide, ← h.zero m (.tail _ hm)]
    exact Function.update_of_ne hne _ _
  · rw [hide, ← h.drives]
    rcases eq_or_ne m n with rfl | hne
    · exact Function.update_self _ _ _
    · rw [h.drives, ← h.found m hm (by simp [hne, hout])]
      exact Function.update_of_ne hne _ _

/-! ## Reads and writes -/

/-- The calls that select a drive and that read and write its blocks. -/
inductive DiskCall
  | sel (drivenum : ℕ)
  | read (lba : ℤ) (buf : Block)
  | write (lba : ℤ) (buf : Block)

/-- A call of the driver: the return value, and what the buffer holds. -/
def DiskCall.exec (fuel : ℕ) (call : DiskCall) (r : Ide × Ata) :
    Except IdeHalt ((ℤ × Block) × (Ide × Ata)) :=
  match call with
  | .sel drivenum =>
    match ideSel r.1 drivenum with
    | none => .ok ((-1, .zero), r)
    | some ide => .ok ((0, .zero), (ide, r.2))
  | .read lba buf => do
    let b ← Ata.bus.readLba r.1 lba buf fuel r.2
    .ok ((b.1, b.2.1), (r.1, b.2.2))
  | .write lba buf => do
    let b ← Ata.bus.writeLba r.1 lba buf fuel r.2
    .ok ((b.1, b.2.1), (r.1, b.2.2))

/-- An array of blocks for each drive that is there, with the number of its blocks. One of them is
selected. -/
structure Store where
  size : ℕ → Option ℕ
  selected : ℕ
  disks : ℕ → Disk

/-- What a call means for the arrays. -/
def Store.exec (call : DiskCall) (s : Store) : Except IdeHalt ((ℤ × Block) × Store) :=
  match call with
  | .sel drivenum =>
    if (s.size drivenum).isNone then
      .ok ((-1, .zero), s) else .ok ((0, .zero), { s with selected := drivenum })
  | .read lba _ => .ok ((0, s.disks s.selected lba.toNat), s)
  | .write lba buf =>
    .ok ((0, buf), { s with
      disks := Function.update s.disks s.selected (Function.update (s.disks s.selected) lba.toNat buf) })

/-- Drives have the numbers from 0 to 3, and blocks lie in the selected drive. -/
def Store.Accepts (s : Store) : DiskCall → Prop
  | .sel drivenum => drivenum < 4
  | .read lba _ => ∃ size, s.size s.selected = some size ∧ 0 ≤ lba ∧ lba < size
  | .write lba _ => ∃ size, s.size s.selected = some size ∧ 0 ≤ lba ∧ lba < size

/-- The blocks of the drives. -/
def Ata.store (a : Ata) (selected : ℕ) : Store where
  size n := (a.drives n).map fun d => d.cylinders * d.heads * 63
  selected := selected
  disks := a.block

/-- The entry that the driver has for a slot says what is there. -/
def DriveEntry.Describes (e : DriveEntry) : Option Drive → Prop
  | none => e.exist = false
  | some d => e.exist = true ∧ (d.cylinders ≤ 1024 ∧ d.heads ≤ 16) ∧ e.maxC = d.cylinders ∧
    e.maxH = d.heads

/-- The store depends on the drives only. -/
theorem Ata.store_congr (h : a'.drives = a.drives) (n : ℕ) : a'.store n = a.store n := by
  have hblock : a'.block = a.block := by
    funext m lba
    rw [Ata.block, Ata.block, h]
  simp only [Ata.store, h, hblock]

/-- A block that is put in a sector is put in the array. -/
theorem Ata.store_stored (hdrive : a.drives n = some d) {lba : ℕ} {b : Block}
    (h : a'.drives = a.stored n lba b) :
    a'.store n = { a.store n with
      disks := Function.update (a.store n).disks n (Function.update ((a.store n).disks n) lba b) } := by
  have hsize : ∀ m, (a'.drives m).map (fun d => d.cylinders * d.heads * 63) =
      (a.drives m).map fun d => d.cylinders * d.heads * 63 := by
    intro m
    rw [h, Ata.stored]
    rcases eq_or_ne m n with rfl | hne
    · rw [Function.update_self, hdrive]
      rfl
    · rw [Function.update_of_ne hne]
  have hblock : a'.block = Function.update a.block n (Function.update (a.block n) lba b) := by
    funext m l
    rw [Ata.block, h, Ata.stored]
    rcases eq_or_ne m n with rfl | hne
    · rw [Function.update_self, Function.update_self, hdrive]
      rcases eq_or_ne l lba with rfl | hneLba
      · simp
      · simp [Function.update_of_ne hneLba, Ata.block, hdrive]
    · rw [Function.update_of_ne hne, Function.update_of_ne hne]
      rfl
  simp only [Ata.store, hsize, hblock]

/-- The driver knows the drives, and the store is what they hold. -/
structure Store.Shows (s : Store) (r : Ide × Ata) : Prop where
  store : r.2.store r.1.driveSel = s
  driveSel : r.1.driveSel < 4
  entries : ∀ n < 4, (r.1.drives n).Describes (r.2.drives n)

/-- The command for a linear address finds the sector with this number. -/
theorem Drive.address_lba {e : DriveEntry} (he : e.Describes (some d)) {lba : ℤ} {c h s : ℤ}
    (hsector : e.HasSector c h s) (hlba : (c * e.maxH + h) * 63 + s - 1 = lba) (w : Bool) :
    d.address (.request n c h s w) = some lba.toNat := by
  obtain ⟨-, ⟨hcylinders, hheads⟩, hmaxC, hmaxH⟩ := he
  obtain ⟨hc, hh, hs⟩ := hsector
  obtain ⟨hcylinder, hhead, hsec⟩ := request_fields n c h s w
  rw [hmaxC] at hc
  rw [hmaxH] at hh hlba
  obtain ⟨c, rfl⟩ := Int.eq_ofNat_of_zero_le hc.1
  obtain ⟨h, rfl⟩ := Int.eq_ofNat_of_zero_le hh.1
  obtain ⟨s, rfl⟩ := Int.eq_ofNat_of_zero_le (show 0 ≤ s by omega)
  rw [Drive.address, hcylinder, hhead, hsec, Int.emod_eq_of_lt (by omega) (by omega),
    Int.emod_eq_of_lt (by omega) (by omega), Int.emod_eq_of_lt (by omega) (by omega),
    if_pos (by omega), ← hlba]
  congr 1
  simp only [Int.toNat_natCast]
  omega

/-- A block of the selected drive is found where its number says. -/
theorem Store.Shows.located {s : Store} {r : Ide × Ata} (h : s.Shows r) {lba : ℤ} {size : ℕ}
    (hsize : s.size s.selected = some size) (hlow : 0 ≤ lba) (hhigh : lba < size) :
    ∃ d, r.2.drives r.1.driveSel = some d ∧ ∃ c hd sec, lbaToChs r.1 lba = .ok (c, hd, sec) ∧
      ∀ w, d.address (.request r.1.driveSel c hd sec w) = some lba.toNat := by
  rw [← h.store] at hsize
  obtain ⟨d, hd, rfl⟩ := Option.map_eq_some_iff.mp hsize
  have hdrive : r.2.drives r.1.driveSel = some d := hd
  have hentry := h.entries _ h.driveSel
  rw [hdrive] at hentry
  obtain ⟨-, -, hmaxC, hmaxH⟩ := id hentry
  have htracks : 0 < d.cylinders * d.heads := by omega
  have hcylinders := Nat.pos_of_mul_pos_right htracks
  have hheads := Nat.pos_of_mul_pos_left htracks
  have hgeometry : (r.1.drives r.1.driveSel).InGeometry lba := by
    rw [DriveEntry.InGeometry, hmaxC, hmaxH]
    exact ⟨by omega, by omega, hlow, by exact_mod_cast hhigh⟩
  obtain ⟨c, hd, sec, hchs, hsector, hlba⟩ := lbaToChs_inGeometry hgeometry
  exact ⟨d, hdrive, c, hd, sec, hchs, fun w => Drive.address_lba hentry hsector hlba w⟩

/-- A read of a block of the selected drive. -/
theorem Store.Shows.read {s : Store} {r : Ide × Ata} (h : s.Shows r) {lba : ℤ} {buf : Block}
    (hlba : s.Accepts (.read lba buf)) :
    Ends (fun fuel => DiskCall.exec fuel (.read lba buf) r) fun r' =>
      r'.1 = (0, s.disks s.selected lba.toNat) ∧ s.Shows r'.2 := by
  obtain ⟨size, hsize, hlow, hhigh⟩ := hlba
  obtain ⟨d, hdrive, c, hd, sec, hchs, haddress⟩ := h.located hsize hlow hhigh
  simp only [DiskCall.exec, IdeBus.readLba, IdeBus.read, IdeBus.rw_eq, hchs, ok_bind]
  refine (Ata.rwAbs_read h.driveSel hdrive c hd sec buf).bind fun b hread => .ok ?_
  obtain ⟨hdrives, hb⟩ := hread
  rw [haddress] at hb
  have hblock : s.disks s.selected lba.toNat = d.sectors lba.toNat := by
    rw [← h.store]
    simp [Ata.store, Ata.block, hdrive]
  refine ⟨by rw [hb, hblock], (Ata.store_congr hdrives _).trans h.store, h.driveSel, ?_⟩
  rw [hdrives]
  exact h.entries

/-- A write of a block of the selected drive. -/
theorem Store.Shows.write {s : Store} {r : Ide × Ata} (h : s.Shows r) {lba : ℤ} {buf : Block}
    (hlba : s.Accepts (.write lba buf)) :
    Ends (fun fuel => DiskCall.exec fuel (.write lba buf) r) fun r' =>
      r'.1 = (0, buf) ∧
        Store.Shows { s with
          disks := Function.update s.disks s.selected
            (Function.update (s.disks s.selected) lba.toNat buf) } r'.2 := by
  obtain ⟨size, hsize, hlow, hhigh⟩ := hlba
  obtain ⟨d, hdrive, c, hd, sec, hchs, haddress⟩ := h.located hsize hlow hhigh
  simp only [DiskCall.exec, IdeBus.writeLba, IdeBus.write, IdeBus.rw_eq, hchs, ok_bind]
  refine (Ata.rwAbs_write h.driveSel hdrive c hd sec buf).bind fun b hwritten => .ok ?_
  obtain ⟨hret, hbuf, hdrives⟩ := hwritten
  simp only [haddress] at hdrives
  refine ⟨by rw [hret, hbuf], ?_, h.driveSel, fun n hn => ?_⟩
  · rw [Ata.store_stored hdrive hdrives, h.store]
    rw [← h.store]
    rfl
  · have hentry := h.entries n hn
    rw [hdrives, Ata.stored]
    rcases eq_or_ne n r.1.driveSel with rfl | hne
    · rw [Function.update_self, hdrive]
      rw [hdrive] at hentry
      exact hentry
    · rw [Function.update_of_ne hne]
      exact hentry

/-- Every call that the store accepts is answered as the store answers it. -/
theorem Store.Shows.exec {s s' : Store} {r : Ide × Ata} (h : s.Shows r) {call : DiskCall}
    {answer : ℤ × Block} (hcall : s.Accepts call) (hexec : s.exec call = .ok (answer, s')) :
    Ends (fun fuel => DiskCall.exec fuel call r) fun r' => r'.1 = answer ∧ s'.Shows r'.2 := by
  cases call with
  | sel drivenum =>
    have hentry := h.entries drivenum hcall
    have hsize : s.size drivenum = (r.2.drives drivenum).map fun d => d.cylinders * d.heads * 63 := by
      rw [← h.store]
      rfl
    rw [Store.exec, hsize] at hexec
    cases hdrive : r.2.drives drivenum with
    | none =>
      rw [hdrive] at hentry hexec
      cases hexec
      simp only [DiskCall.exec, ideSel, if_pos (show (r.1.drives drivenum).exist = false from hentry)]
      exact .ok ⟨rfl, h⟩
    | some d =>
      rw [hdrive] at hentry hexec
      cases hexec
      simp only [DiskCall.exec, ideSel, hentry.1, Bool.true_eq_false, if_false]
      refine .ok ⟨rfl, ?_, hcall, h.entries⟩
      rw [← h.store]
      rfl
  | read lba buf =>
    cases hexec
    exact h.read hcall
  | write lba buf =>
    cases hexec
    exact h.write hcall

/-- After `ide_init` the driver knows the drives. -/
theorem Ata.Recorded.shows {r : Ide × Ata} (h : a.Recorded [] r)
    (hfits : ∀ n < 4, ∀ d, a.drives n = some d → d.Fits ∧ d.cylinders ≤ 1024) : (a.store 0).Shows r := by
  refine ⟨?_, ?_, fun n hn => ?_⟩
  · rw [h.driveSel]
    exact Ata.store_congr h.drives 0
  · rw [h.driveSel]
    decide
  · rw [h.drives, h.found n hn List.not_mem_nil]
    cases hdrive : a.drives n with
    | none => rfl
    | some d =>
      obtain ⟨hfits, hcylinders⟩ := hfits n hn d hdrive
      obtain ⟨hexist, hmaxC, hmaxH, -⟩ := DriveEntry.found_some d
      rw [if_pos hcylinders] at hmaxC hmaxH
      exact ⟨hexist, ⟨hcylinders, hfits.heads.2⟩, hmaxC, hmaxH⟩

/-! ## The driver on its drives -/

/-- However long the drives take, `ide_init` finds all of them: the slots that are filled, the
geometry of a drive of at most 1024 cylinders, and the partitions of a drive with the signature in
its first sector. It writes to no drive. -/
theorem ide_init_finds (a : Ata) (hfits : ∀ n < 4, ∀ d, a.drives n = some d → d.Fits)
    (stack : ℕ → Block) :
    ∃ calls ide a', (∀ fuel ≥ calls, Ata.bus.init fuel stack Ide.zero a = .ok (ide, a')) ∧
      a'.drives = a.drives ∧
      ide.driveSel = 0 ∧ ∀ n < 4, (ide.drives n).exist = (a.drives n).isSome ∧ ∀ d, a.drives n = some d →
        ((ide.drives n).maxC = if d.cylinders ≤ 1024 then (d.cylinders : ℤ) else -1) ∧
        ((ide.drives n).maxH = if d.cylinders ≤ 1024 then (d.heads : ℤ) else -1) ∧
        ((ide.drives n).msdos = true ↔ LittleEndian.value (d.sectors 0).get 2 510 = 0xaa55) ∧
        ((ide.drives n).msdos = true → ∀ i < 4,
          (ide.drives n).partitions i = (d.sectors 0).partition i) := by
  obtain ⟨calls, ⟨ide, a'⟩, h, hrun⟩ := a.init_returns hfits stack
  refine ⟨calls, ide, a', hrun, h.drives, h.driveSel, fun n hn => ?_⟩
  have hfound : ide.drives n = .found (a.drives n) := h.found n hn List.not_mem_nil
  rw [hfound]
  cases hdrive : a.drives n with
  | none => exact ⟨rfl, fun d hd => absurd hd (by simp)⟩
  | some d =>
    refine ⟨rfl, fun d' hd' => ?_⟩
    cases hd'
    exact (DriveEntry.found_some d).2

/-- The first slot holds a drive of two cylinders and three heads, which takes three polls for a
command. -/
def smallDrive : Ata :=
  ⟨fun _ => 0, fun _ => 0, fun _ => false, fun _ => none, fun n => if n = 0 then
    some ⟨2, 3, fun _ => .zero⟩ else none,
    fun _ => 3, 0, []⟩

/-- The small drive fits the head field and the cylinders. -/
theorem smallDrive_fits : ∀ n < 4, ∀ d, smallDrive.drives n = some d → d.Fits ∧ d.cylinders ≤ 1024 := by
  intro n _ d hd
  rw [smallDrive] at hd
  dsimp only at hd
  split at hd
  · cases hd
    exact ⟨⟨by decide, by decide⟩, by decide⟩
  · cases hd

/-- The geometry of the drive is found. -/
theorem ide_init_finds_small : ∃ calls ide a', (∀ fuel ≥ calls,
    Ata.bus.init fuel (fun _ => .zero) Ide.zero smallDrive = .ok (ide, a')) ∧
      (ide.drives 0).exist = true ∧
      (ide.drives 0).maxC = 2 ∧ (ide.drives 0).maxH = 3 ∧ (ide.drives 1).exist = false := by
  obtain ⟨calls, ide, a', hrun, -, -, hfound⟩ :=
    ide_init_finds smallDrive (fun n hn d hd => (smallDrive_fits n hn d hd).1) fun _ => .zero
  obtain ⟨hexist, hentry⟩ := hfound 0 (by decide)
  obtain ⟨hmaxC, hmaxH, -⟩ := hentry _ rfl
  exact ⟨calls, ide, a', hrun, hexist, hmaxC, hmaxH, (hfound 1 (by decide)).1⟩

end Hobby386
