import Hobby386.Grab.IdeBus

/-!
# The commands of the hard disk driver

The controllers behind the ports are the answers of their status and data registers, in the order in
which the driver reads them, and what the driver writes to them: registers, and commands, which take
the registers as they are at that moment.
-/

namespace Hobby386

/-! ## The controllers -/

/-- The answers of the controllers, in the order in which the driver reads them. -/
structure Controller where
  status : ℕ → UInt8
  sector : ℕ → Block

/-- A command with the registers of its channel. -/
structure Command where
  base : ℕ
  opcode : UInt8
  seccnt : UInt8
  sector : UInt8
  syllow : UInt8
  sylhigh : UInt8
  sel : UInt8
  deriving DecidableEq

/-- The cylinder that a command is for. -/
def Command.cylinder (cmd : Command) : ℕ := cmd.syllow.toNat + 256 * cmd.sylhigh.toNat

/-- The head that a command is for. -/
def Command.head (cmd : Command) : ℕ := (cmd.sel &&& 0x0f).toNat

/-- The ports: how many answers have been read, the registers, and what the controllers have received. -/
structure IdePorts where
  polls : ℕ
  delivered : ℕ
  regs : ℕ → UInt8
  commands : List Command
  sent : List Block
  printed : List (String × List ℤ)

/-- `outb`. -/
def IdePorts.outb (io : IdePorts) (data : UInt8) (port : ℕ) : IdePorts :=
  let command (base : ℕ) : Command :=
    { base
      opcode := data
      seccnt := io.regs (base + portSeccnt)
      sector := io.regs (base + portSector)
      syllow := io.regs (base + portSyllow)
      sylhigh := io.regs (base + portSylhigh)
      sel := io.regs (base + portSel) }
  if port = primaryBase + portCommand then { io with commands := io.commands ++ [command primaryBase] }
  else if port = secondaryBase + portCommand then
    { io with commands := io.commands ++ [command secondaryBase] }
  else { io with regs := Function.update io.regs port data }

/-- `outsl` of one sector. -/
def IdePorts.outsl (io : IdePorts) (buf : Block) : IdePorts := { io with sent := io.sent ++ [buf] }

/-- `printf`. -/
def IdePorts.printf (io : IdePorts) (fmt : String) (args : List ℤ) : IdePorts :=
  { io with printed := io.printed ++ [(fmt, args)] }

/-- The machine whose ports answer what the controllers have been told to answer. -/
def Controller.bus (k : Controller) : IdeBus IdePorts where
  inb _ io := (k.status io.polls, { io with polls := io.polls + 1 })
  outb data port io := io.outb data port
  insl _ io := (k.sector io.delivered, { io with delivered := io.delivered + 1 })
  outsl buf _ io := io.outsl buf
  printf fmt args io := io.printf fmt args

variable (k : Controller)

/-! ## The driver -/

/-- The port writes of `ide_rw_abs`. -/
def issue (drive : ℕ) (c h s : ℤ) (opcode : UInt8) (io : IdePorts) : IdePorts :=
  portWrites (fun data port io => io.outb data port) drive c h s opcode io

/-- `ide_rw_abs`: the return value and the buffer. -/
def ideRwAbs (fuel drive : ℕ) (c h s : ℤ) (buf : Block) (w : Bool) (io : IdePorts) :
    Except IdeHalt (ℤ × Block × IdePorts) := k.bus.rwAbs fuel drive c h s buf w io

/-- `ide_write_lba`. -/
def ideWriteLba (ide : Ide) (lba : ℤ) (buf : Block) (fuel : ℕ) (io : IdePorts) :
    Except IdeHalt (ℤ × Block × IdePorts) := k.bus.writeLba ide lba buf fuel io

/-- `ide_read_lba`. -/
def ideReadLba (ide : Ide) (lba : ℤ) (buf : Block) (fuel : ℕ) (io : IdePorts) :
    Except IdeHalt (ℤ × Block × IdePorts) := k.bus.readLba ide lba buf fuel io

/-- `ide_init`, with the contents of the buffer on the stack in each turn of its loop. -/
def ideInit (fuel : ℕ) (stack : ℕ → Block) (ide : Ide) (io : IdePorts) :
    Except IdeHalt (Ide × IdePorts) :=
  k.bus.init fuel stack ide io

/-! ## Requests -/

/-- Whatever has happened, a moment comes at which no command is executed and a sector can be
transferred. -/
def Controller.Responds : Prop :=
  ∀ n, ∃ m ≥ n, busy (k.status m) = false ∧ notReady (k.status m) = false

/-- The command that `ide_rw_abs` issues. -/
def Command.request (drive : ℕ) (c h s : ℤ) (w : Bool) : Command where
  base := channelOf drive
  opcode := if w then cmdWrsect else cmdRdsect
  seccnt := 1
  sector := sectorReg s
  syllow := syllowReg c
  sylhigh := sylhighReg c
  sel := selReg drive h

/-- The drive has a sector. -/
structure DriveEntry.HasSector (d : DriveEntry) (c h s : ℤ) : Prop where
  cylinder : 0 ≤ c ∧ c < d.maxC
  head : 0 ≤ h ∧ h < d.maxH
  sector : 1 ≤ s ∧ s ≤ 63

/-- The command is for a sector. -/
structure Command.IsFor (cmd : Command) (c h s : ℤ) : Prop where
  cylinder : cmd.cylinder = c
  head : cmd.head = h
  sector : cmd.sector.toNat = s

/-- The command is for the sector of the drive that has a linear address. -/
def Command.Addresses (cmd : Command) (d : DriveEntry) (lba : ℤ) : Prop :=
  ∃ c h s, cmd.IsFor c h s ∧ d.HasSector c h s ∧ (c * d.maxH + h) * 63 + s - 1 = lba

/-- A call returns after a single command for the address, or returns -1 without a command. -/
def AddressesOrRefuses (call : ℕ → IdePorts → Except IdeHalt (ℤ × Block × IdePorts))
    (d : DriveEntry) (lba : ℤ) (io : IdePorts) : Prop :=
  ∃ calls ret buf io', (∀ fuel ≥ calls, call fuel io = .ok (ret, buf, io')) ∧
    ((∃ cmd, io'.commands = io.commands ++ [cmd] ∧ cmd.Addresses d lba) ∨
      ret = -1 ∧ io'.commands = io.commands)

/-- The drive has sectors, and the address is one of them. -/
def DriveEntry.InGeometry (d : DriveEntry) (lba : ℤ) : Prop :=
  0 < d.maxC ∧ 0 < d.maxH ∧ 0 ≤ lba ∧ lba < d.maxC * d.maxH * 63

variable {k} {io : IdePorts}

/-- Every drive is on one of the two channels. -/
theorem channelOf_cases (drive : ℕ) : channelOf drive = primaryBase ∨
    channelOf drive = secondaryBase := by
  rw [channelOf]
  split
  · exact .inl rfl
  · exact .inr rfl

/-- A write to a register of a channel issues no command. -/
theorem outb_reg (io : IdePorts) (data : UInt8) (drive : ℕ) {reg : ℕ} (hreg : reg < portCommand) :
    io.outb data (channelOf drive + reg) =
      { io with regs := Function.update io.regs (channelOf drive + reg) data } := by
  have hseven : reg < 7 := hreg
  rw [IdePorts.outb]
  rcases channelOf_cases drive with hbase | hbase
  · rw [hbase, if_neg (show ¬0x1f0 + reg = 0x1f0 + 7 by omega),
      if_neg (show ¬0x1f0 + reg = 0x170 + 7 by omega)]
  · rw [hbase, if_neg (show ¬0x170 + reg = 0x1f0 + 7 by omega),
      if_neg (show ¬0x170 + reg = 0x170 + 7 by omega)]

/-- A write to the command port of a channel issues a command with the registers of that channel. -/
theorem outb_command (io : IdePorts) (data : UInt8) (drive : ℕ) :
    io.outb data (channelOf drive + portCommand) =
      { io with commands := io.commands ++
          [{ base := channelOf drive
             opcode := data
             seccnt := io.regs (channelOf drive + portSeccnt)
             sector := io.regs (channelOf drive + portSector)
             syllow := io.regs (channelOf drive + portSyllow)
             sylhigh := io.regs (channelOf drive + portSylhigh)
             sel := io.regs (channelOf drive + portSel) }] } := by
  rw [IdePorts.outb]
  rcases channelOf_cases drive with hbase | hbase
  · rw [hbase, if_pos rfl]
  · rw [hbase, if_neg (by decide), if_pos rfl]

/-- Waiting ends, and no command is issued meanwhile. -/
theorem waitWhile_returns {p : UInt8 → Bool} (base : ℕ) (h : ∀ n, ∃ m ≥ n, p (k.status m) = false)
    (io : IdePorts) :
    ∃ calls r, (∀ fuel ≥ calls, k.bus.waitWhile base p fuel io = .ok r) ∧
      r.2.commands = io.commands := by
  obtain ⟨m, hm, hstop⟩ := h io.polls
  obtain ⟨j, rfl⟩ := Nat.exists_eq_add_of_le hm
  clear hm
  suffices hends : Fuel.Ends (fun fuel => k.bus.waitWhile base p fuel io) fun r => r.2.commands =
    io.commands by
    obtain ⟨calls, r, hr, hrun⟩ := hends
    exact ⟨calls, r, hrun, hr⟩
  induction j generalizing io with
  | zero => exact (IdeBus.waitWhile_stop hstop).mono fun r hr => by rw [hr]; rfl
  | succ j ih =>
    by_cases hmore : p (k.status io.polls) = true
    · refine IdeBus.waitWhile_more hmore (ih { io with polls := io.polls + 1 } ?_)
      rwa [show io.polls + 1 + j = io.polls + (j + 1) by omega]
    · exact (IdeBus.waitWhile_stop (Bool.eq_false_of_not_eq_true hmore)).mono fun r hr => by rw [hr]; rfl

/-- On these ports the driver makes these writes. -/
theorem Controller.bus_issue (drive : ℕ) (c h s : ℤ) (opcode : UInt8) (io : IdePorts) :
    k.bus.issue drive c h s opcode io = issue drive c h s opcode io := rfl

/-- The controller receives one command, with the registers that have just been set. -/
theorem issue_commands (drive : ℕ) (c h s : ℤ) (w : Bool) (io : IdePorts) :
    (issue drive c h s (if w then cmdWrsect else cmdRdsect) io).commands =
      io.commands ++ [Command.request drive c h s w] := by
  rw [issue, portWrites, outb_command, outb_reg _ _ _ (by decide), outb_reg _ _ _ (by decide),
    outb_reg _ _ _ (by decide), outb_reg _ _ _ (by decide), outb_reg _ _ _ (by decide)]
  simp [Command.request]

/-- `ide_rw_abs` returns, and it has issued exactly one command. -/
theorem ideRwAbs_returns (hk : k.Responds) (drive : ℕ) (c h s : ℤ) (buf : Block) (w : Bool)
    (io : IdePorts) :
    ∃ calls ret buf' io', (∀ fuel ≥ calls, ideRwAbs k fuel drive c h s buf w io = .ok (ret, buf', io')) ∧
      io'.commands = io.commands ++ [Command.request drive c h s w] := by
  have hbusy : ∀ n, ∃ m ≥ n, busy (k.status m) = false := fun n => (hk n).imp fun m hm => ⟨hm.1, hm.2.1⟩
  have hready : ∀ n, ∃ m ≥ n, notReady (k.status m) = false :=
    fun n => (hk n).imp fun m hm => ⟨hm.1, hm.2.2⟩
  obtain ⟨calls₁, r₁, hwait₁, hsame₁⟩ := waitWhile_returns (channelOf drive) hbusy io
  have hissue := issue_commands drive c h s w r₁.2
  rw [hsame₁] at hissue
  cases w with
  | true =>
    refine ⟨calls₁, 0, buf, (issue drive c h s cmdWrsect r₁.2).outsl buf, fun fuel hfuel => ?_, hissue⟩
    rw [ideRwAbs, IdeBus.rwAbs, hwait₁ fuel hfuel]
    rfl
  | false =>
    obtain ⟨calls₂, r₂, hwait₂, hsame₂⟩ :=
      waitWhile_returns (channelOf drive) hbusy (issue drive c h s cmdRdsect r₁.2)
    obtain ⟨calls₃, r₃, hwait₃, hsame₃⟩ := waitWhile_returns (channelOf drive) hready r₂.2
    by_cases herr : r₂.1 &&& statusErr ≠ 0
    · refine ⟨max calls₁ calls₂, -1, buf, r₂.2, fun fuel hfuel => ?_, hsame₂.trans hissue⟩
      rw [ideRwAbs, IdeBus.rwAbs, hwait₁ fuel (by omega), ok_bind, if_neg Bool.false_ne_true,
        k.bus_issue, hwait₂ fuel (by omega), ok_bind, if_pos herr]
    · refine ⟨max calls₁ (max calls₂ calls₃), 0, k.sector r₃.2.delivered,
        { r₃.2 with delivered := r₃.2.delivered + 1 }, fun fuel hfuel => ?_,
        (hsame₃.trans hsame₂).trans hissue⟩
      rw [ideRwAbs, IdeBus.rwAbs, hwait₁ fuel (by omega), ok_bind, if_neg Bool.false_ne_true,
        k.bus_issue, hwait₂ fuel (by omega), ok_bind, if_neg herr, hwait₃ fuel (by omega), ok_bind]
      rfl

/-! ## Addresses -/

variable {ide : Ide} {lba lba' c hd s : ℤ}

/-- The division with remainder of an address by the sectors of a track and by the heads. -/
theorem lbaToChs_eq (hpos : 0 < (ide.drives ide.driveSel).maxH) (hlba : 0 ≤ lba) :
    lbaToChs ide lba = .ok (lba / 63 / (ide.drives ide.driveSel).maxH,
      lba / 63 % (ide.drives ide.driveSel).maxH, lba % 63 + 1) := by
  have htrack : 0 ≤ lba / 63 := Int.ediv_nonneg hlba (by decide)
  rw [lbaToChs, if_neg hpos.ne', Int.tdiv_eq_ediv_of_nonneg hlba, Int.tdiv_eq_ediv_of_nonneg htrack,
    Int.tmod_eq_emod_of_nonneg htrack, Int.tmod_eq_emod_of_nonneg hlba]

/-- The registers of a command give a sector of a probed geometry back. -/
theorem isFor_request {d : DriveEntry} (hmaxC : d.maxC ≤ 1024) (hmaxH : d.maxH ≤ 16)
    (h : d.HasSector c hd s) (drive : ℕ) (w : Bool) : (Command.request drive c hd s w).IsFor c hd s := by
  obtain ⟨hc, hh, hs⟩ := h
  have hlow : ∀ d < 2, ∀ n < 16,
      (((0xa0 : UInt8) ||| UInt8.ofNat (d <<< 4) ||| UInt8.ofNat n) &&& 0x0f).toNat = n := by
    decide
  refine ⟨?_, ?_, ?_⟩
  · simp only [Command.request, Command.cylinder, syllowReg, sylhighReg, UInt8.toNat_ofNat',
      Nat.shiftRight_eq_div_pow]
    omega
  · simp only [Command.request, Command.head, selReg]
    rw [hlow _ (Nat.mod_lt _ (by decide)) _ (by omega)]
    omega
  · simp only [Command.request, sectorReg, UInt8.toNat_ofNat']
    omega

/-- Cylinder, head and sector of an address in the geometry lie in it and give the address back. -/
theorem lbaToChs_inGeometry (hg : (ide.drives ide.driveSel).InGeometry lba) :
    ∃ c h s, lbaToChs ide lba = .ok (c, h, s) ∧ (ide.drives ide.driveSel).HasSector c h s ∧
      (c * (ide.drives ide.driveSel).maxH + h) * 63 + s - 1 = lba := by
  obtain ⟨hmaxC, hmaxH, hlba, hlt⟩ := hg
  have htrack : 0 ≤ lba / 63 := Int.ediv_nonneg hlba (by decide)
  have htracks : lba / 63 < (ide.drives ide.driveSel).maxC * (ide.drives ide.driveSel).maxH :=
    Int.ediv_lt_of_lt_mul (by decide) hlt
  have hsplit := Int.mul_ediv_add_emod (lba / 63) (ide.drives ide.driveSel).maxH
  refine ⟨_, _, _, lbaToChs_eq hmaxH hlba,
    ⟨⟨Int.ediv_nonneg htrack hmaxH.le, Int.ediv_lt_of_lt_mul hmaxH htracks⟩,
    ⟨Int.emod_nonneg _ hmaxH.ne', Int.emod_lt_of_pos _ hmaxH⟩, by omega⟩, ?_⟩
  rw [mul_comm _ (ide.drives ide.driveSel).maxH, hsplit]
  omega

/-- A sector of the drive has an address in its geometry. -/
theorem DriveEntry.HasSector.inGeometry {d : DriveEntry} (h : d.HasSector c hd s) :
    d.InGeometry ((c * d.maxH + hd) * 63 + s - 1) := by
  obtain ⟨hc, hh, hs⟩ := h
  have hlow : 0 ≤ c * d.maxH := mul_nonneg hc.1 (by omega)
  have hhigh : (c + 1) * d.maxH ≤ d.maxC * d.maxH := mul_le_mul_of_nonneg_right (by omega) (by omega)
  rw [add_one_mul] at hhigh
  exact ⟨by omega, by omega, by omega, by omega⟩

/-- `lba_to_chs` finds the sector with an address. -/
theorem lbaToChs_hasSector (h : (ide.drives ide.driveSel).HasSector c hd s) :
    lbaToChs ide ((c * (ide.drives ide.driveSel).maxH + hd) * 63 + s - 1) = .ok (c, hd, s) := by
  obtain ⟨-, hmaxH, hlba, -⟩ := h.inGeometry
  obtain ⟨-, hh, hs⟩ := h
  have htrack : ((c * (ide.drives ide.driveSel).maxH + hd) * 63 + s - 1) / 63 =
      c * (ide.drives ide.driveSel).maxH + hd := by omega
  rw [lbaToChs_eq hmaxH hlba, htrack, mul_comm c, Int.mul_add_ediv_left _ _ hmaxH.ne',
    Int.ediv_eq_zero_of_lt hh.1 hh.2, Int.mul_add_emod_self_left, Int.emod_eq_of_lt hh.1 hh.2]
  congr
  · omega
  · omega

/-- A command is for one sector. -/
theorem Command.IsFor.unique {cmd : Command} {c' hd' s' : ℤ} (h : cmd.IsFor c hd s)
    (h' : cmd.IsFor c' hd' s') :
    c = c' ∧ hd = hd' ∧ s = s' :=
  ⟨h.cylinder.symm.trans h'.cylinder, h.head.symm.trans h'.head, h.sector.symm.trans h'.sector⟩

/-- In a probed geometry the addresses correspond to the sectors, and the four registers of a
command determine the address. -/
theorem lba_addressing_bijective (ide : Ide)
    (hmaxC : 1 ≤ (ide.drives ide.driveSel).maxC ∧ (ide.drives ide.driveSel).maxC ≤ 1024)
    (hmaxH : 1 ≤ (ide.drives ide.driveSel).maxH ∧ (ide.drives ide.driveSel).maxH ≤ 16) :
    (∀ lba, 0 ≤ lba → lba < (ide.drives ide.driveSel).maxC * (ide.drives ide.driveSel).maxH * 63 →
      ∃ c h s, lbaToChs ide lba = .ok (c, h, s) ∧ (ide.drives ide.driveSel).HasSector c h s ∧
        (c * (ide.drives ide.driveSel).maxH + h) * 63 + (s - 1) = lba) ∧
    (∀ lba lba' c h s c' h' s', (ide.drives ide.driveSel).InGeometry lba →
      (ide.drives ide.driveSel).InGeometry lba' → lbaToChs ide lba = .ok (c, h, s) →
      lbaToChs ide lba' = .ok (c', h', s') →
      (sectorReg s, syllowReg c, sylhighReg c, selReg ide.driveSel h) =
        (sectorReg s', syllowReg c', sylhighReg c', selReg ide.driveSel h') → lba = lba') ∧
    (∀ c h s, (ide.drives ide.driveSel).HasSector c h s →
      ∃ lba, (ide.drives ide.driveSel).InGeometry lba ∧ lbaToChs ide lba = .ok (c, h, s) ∧
        ∀ (io : IdePorts) (w : Bool), ∃ cmd : Command, cmd.IsFor c h s ∧
          (issue ide.driveSel c h s (if w then cmdWrsect else cmdRdsect) io).commands =
            io.commands ++ [cmd]) := by
  refine ⟨fun lba hlba hlt => ?_, ?_, fun c h s hsector => ?_⟩
  · have hg : (ide.drives ide.driveSel).InGeometry lba := ⟨by omega, by omega, hlba, hlt⟩
    obtain ⟨c, h, s, hchs, hsector, hback⟩ := lbaToChs_inGeometry hg
    exact ⟨c, h, s, hchs, hsector, by omega⟩
  · intro lba lba' c h s c' h' s' hg hg' hchs hchs' hregs
    obtain ⟨_, _, _, hfirst, hsector, hback⟩ := lbaToChs_inGeometry hg
    obtain ⟨_, _, _, hsecond, hsector', hback'⟩ := lbaToChs_inGeometry hg'
    rw [hchs] at hfirst
    cases hfirst
    rw [hchs'] at hsecond
    cases hsecond
    have hsame : Command.request ide.driveSel c h s true =
        Command.request ide.driveSel c' h' s' true := by
      simp only [Prod.mk.injEq] at hregs
      rw [Command.request, Command.request, hregs.1, hregs.2.1, hregs.2.2.1, hregs.2.2.2]
    have hfor := isFor_request hmaxC.2 hmaxH.2 hsector ide.driveSel true
    rw [hsame] at hfor
    obtain ⟨rfl, rfl, rfl⟩ := hfor.unique (isFor_request hmaxC.2 hmaxH.2 hsector' ide.driveSel true)
    exact hback.symm.trans hback'
  · exact ⟨_, hsector.inGeometry, lbaToChs_hasSector hsector, fun io w =>
      ⟨_, isFor_request hmaxC.2 hmaxH.2 hsector _ w, issue_commands _ _ _ _ w io⟩⟩

/-- Two cylinders and three heads. -/
def twoByThree : Ide := { Ide.zero with drives := fun _ => ⟨true, false, 2, 3, fun _ => ⟨0, 0⟩⟩ }

/-- The correspondence at the sixth address of the second cylinder. -/
theorem lba_addressing_bijective_small : ∃ c h s, lbaToChs twoByThree 194 = .ok (c, h, s) ∧
    (twoByThree.drives 0).HasSector c h s ∧ (c * 3 + h) * 63 + (s - 1) = 194 :=
  (lba_addressing_bijective twoByThree (by decide) (by decide)).1 194 (by decide) (by decide)

/-! ## Out-of-range requests -/

/-- A call that issues the command of `lba_to_chs` does what it should if and only if the address
lies in the geometry. -/
theorem addressesOrRefuses_iff {call : ℕ → IdePorts → Except IdeHalt (ℤ × Block × IdePorts)} (w : Bool)
    (buf : Block) (hk : k.Responds) (hprobed : (ide.drives ide.driveSel).Probed)
    (hcall : ∀ fuel io, call fuel io = lbaToChs ide lba >>= fun p =>
      ideRwAbs k fuel ide.driveSel p.1 p.2.1 p.2.2 buf w io) :
    AddressesOrRefuses call (ide.drives ide.driveSel) lba io ↔
      (ide.drives ide.driveSel).InGeometry lba := by
  constructor
  · rintro ⟨calls, ret, buf', io', hrun, ⟨cmd, -, haddr⟩ | ⟨-, hnone⟩⟩
    · obtain ⟨c, h, s, -, hsector, rfl⟩ := haddr
      exact hsector.inGeometry
    · obtain ⟨p, hp, -⟩ := bind_eq_ok.mp ((hcall calls io).symm.trans (hrun calls le_rfl))
      obtain ⟨calls', ret', buf'', io'', hrun', hcommand⟩ :=
        ideRwAbs_returns hk ide.driveSel p.1 p.2.1 p.2.2 buf w io
      have hboth := hcall (max calls calls') io
      rw [hrun _ (le_max_left _ _), hp, ok_bind, hrun' _ (le_max_right _ _)] at hboth
      cases hboth
      rw [hnone] at hcommand
      simp at hcommand
  · intro hg
    obtain ⟨c, h, s, hchs, hsector, hlba⟩ := lbaToChs_inGeometry hg
    obtain ⟨calls, ret, buf', io', hrun, hcommand⟩ := ideRwAbs_returns hk ide.driveSel c h s buf w io
    have hbounds : (ide.drives ide.driveSel).maxC ≤ 1024 ∧ (ide.drives ide.driveSel).maxH ≤ 16 := by
      rcases hprobed with ⟨hmaxC, hmaxH⟩ | ⟨hmaxC, hmaxH⟩
      · exact ⟨hmaxC.2, hmaxH.2⟩
      · omega
    refine ⟨calls, ret, buf', io', fun fuel hfuel => ?_, .inl ⟨_, hcommand, c, h, s, ?_, hsector, hlba⟩⟩
    · rw [hcall, hchs, ok_bind, hrun fuel hfuel]
    · exact isFor_request hbounds.1 hbounds.2 hsector _ _

/-- `ide_read_lba` addresses the sector or refuses it exactly when the address is in the geometry.
-/
theorem ideReadLba_iff (hk : k.Responds) (hprobed : (ide.drives ide.driveSel).Probed) (lba : ℤ)
    (buf : Block) (io : IdePorts) :
    AddressesOrRefuses (ideReadLba k ide lba buf) (ide.drives ide.driveSel) lba io ↔
      (ide.drives ide.driveSel).InGeometry lba := by
  refine addressesOrRefuses_iff false buf hk hprobed fun fuel io => ?_
  simp only [ideReadLba, IdeBus.readLba, IdeBus.read, IdeBus.rw_eq]
  rfl

/-- `ide_write_lba` addresses the sector or refuses it exactly when the address is in the geometry.
-/
theorem ideWriteLba_iff (hk : k.Responds) (hprobed : (ide.drives ide.driveSel).Probed) (lba : ℤ)
    (buf : Block) (io : IdePorts) :
    AddressesOrRefuses (ideWriteLba k ide lba buf) (ide.drives ide.driveSel) lba io ↔
      (ide.drives ide.driveSel).InGeometry lba := by
  refine addressesOrRefuses_iff true buf hk hprobed fun fuel io => ?_
  simp only [ideWriteLba, IdeBus.writeLba, IdeBus.write, IdeBus.rw_eq]
  rfl

/-- For a drive as `ide_init` has left it, a read or a write either goes to its own sector or is
refused if and only if the drive has sectors and the address is one of them. -/
theorem ide_lba_iff {fuel n : ℕ} {stack : ℕ → Block} {ide₀ : Ide} {io₀ io₁ : IdePorts} (hk : k.Responds)
    (hinit : ideInit k fuel stack Ide.zero io₀ = .ok (ide₀, io₁)) (hsel : ideSel ide₀ n = some ide)
    (lba : ℤ) (buf : Block) (io : IdePorts) :
    (AddressesOrRefuses (ideReadLba k ide lba buf) (ide.drives n) lba io ↔
      (ide.drives n).InGeometry lba) ∧
      (AddressesOrRefuses (ideWriteLba k ide lba buf) (ide.drives n) lba io ↔
        (ide.drives n).InGeometry lba) := by
  have hprobed := IdeBus.init_probed hinit n
  rw [ideSel] at hsel
  split at hsel
  · cases hsel
  · cases hsel
    exact ⟨ideReadLba_iff hk hprobed lba buf io, ideWriteLba_iff hk hprobed lba buf io⟩

/-- A controller with one track on its first drive: after that track, and on the other drives, every
read ends with an error. -/
def oneTrack : Controller := ⟨fun n => if n = 5 ∨ 10 ≤ n then 0x51 else 0x50, fun _ => .zero⟩

/-- The ports before the driver has used them. -/
def IdePorts.unused : IdePorts := ⟨0, 0, fun _ => 0, [], [], []⟩

/-- The controller of the example responds. -/
theorem oneTrack_responds : oneTrack.Responds := by
  intro n
  refine ⟨n + 10, Nat.le_add_right _ _, ?_⟩
  simp only [oneTrack, if_pos (Or.inr (Nat.le_add_left 10 n))]
  decide

/-- The probe finds one cylinder and one head. A write behind them issues its command for the next
cylinder. -/
theorem oneTrack_init : ∃ ide io, ideInit oneTrack 2 (fun _ => .zero) Ide.zero .unused = .ok (ide, io) ∧
    ideSel ide 0 = some ide ∧ ide.driveSel = 0 ∧ ((ide.drives 0).maxC = 1 ∧ (ide.drives 0).maxH = 1) ∧
    ∃ io', ideWriteLba oneTrack ide 63 .zero 2 io = .ok (0, .zero, io') ∧
      io'.commands = io.commands ++ [⟨primaryBase, cmdWrsect, 1, 1, 1, 0, 0xa0⟩] :=
  ⟨_, _, rfl, rfl, rfl, ⟨rfl, rfl⟩, _, rfl, rfl⟩

/-- The characterisation for the sectors of the track. -/
theorem ide_lba_iff_track : ∃ ide₀ io₀ ide, oneTrack.Responds ∧
    ideInit oneTrack 2 (fun _ => .zero) Ide.zero .unused = .ok (ide₀, io₀) ∧ ideSel ide₀ 0 = some ide ∧
    ∀ lba buf io,
      (AddressesOrRefuses (ideReadLba oneTrack ide lba buf) (ide.drives 0) lba io ↔
        (ide.drives 0).InGeometry lba) ∧
      (AddressesOrRefuses (ideWriteLba oneTrack ide lba buf) (ide.drives 0) lba io ↔
        (ide.drives 0).InGeometry lba) := by
  obtain ⟨ide, io, hinit, hsel, -⟩ := oneTrack_init
  exact ⟨ide, io, ide, oneTrack_responds, hinit, hsel, ide_lba_iff oneTrack_responds hinit hsel⟩

/-- The first sector behind the track is not refused. -/
theorem not_ide_lba_refused : ∃ ide io, oneTrack.Responds ∧
    ideInit oneTrack 2 (fun _ => .zero) Ide.zero .unused = .ok (ide, io) ∧ ideSel ide 0 = some ide ∧
    ((ide.drives 0).maxC = 1 ∧ (ide.drives 0).maxH = 1) ∧
    (∃ io', ideWriteLba oneTrack ide 63 .zero 2 io = .ok (0, .zero, io') ∧
      io'.commands = io.commands ++ [⟨primaryBase, cmdWrsect, 1, 1, 1, 0, 0xa0⟩]) ∧
    ¬AddressesOrRefuses (ideReadLba oneTrack ide 63 .zero) (ide.drives 0) 63 io ∧
    ¬AddressesOrRefuses (ideWriteLba oneTrack ide 63 .zero) (ide.drives 0) 63 io := by
  obtain ⟨ide, io, hinit, hsel, hdrive, hgeometry, hwrite⟩ := oneTrack_init
  have hprobed := IdeBus.init_probed hinit ide.driveSel
  have hread := ideReadLba_iff oneTrack_responds hprobed 63 .zero io
  have hwrites := ideWriteLba_iff oneTrack_responds hprobed 63 .zero io
  have hout : ¬(ide.drives 0).InGeometry 63 := by
    rw [DriveEntry.InGeometry, hgeometry.1, hgeometry.2]
    decide
  rw [hdrive] at hread hwrites
  exact ⟨ide, io, oneTrack_responds, hinit, hsel, hgeometry, hwrite, fun h => hout (hread.mp h),
    fun h => hout (hwrites.mp h)⟩

end Hobby386
