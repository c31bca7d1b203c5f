import Hobby386.Fs.State
import Hobby386.Lib.Fuel

/-!
# The hard disk driver

The driver only uses what the ports do, so it is written over the port instructions of an arbitrary
machine. It waits in loops for the controllers, so a call has some fuel for each of its loops.
-/

namespace Hobby386

open LittleEndian Fuel

@[simp] abbrev primaryBase : ℕ := 0x1f0
@[simp] abbrev secondaryBase : ℕ := 0x170
@[simp] abbrev portSeccnt : ℕ := 2
@[simp] abbrev portSector : ℕ := 3
@[simp] abbrev portSyllow : ℕ := 4
@[simp] abbrev portSylhigh : ℕ := 5
@[simp] abbrev portSel : ℕ := 6
@[simp] abbrev portCommand : ℕ := 7
@[simp] abbrev statusBusy : UInt8 := 0x80
@[simp] abbrev statusReady : UInt8 := 0x40
@[simp] abbrev statusSeek : UInt8 := 0x10
@[simp] abbrev statusErr : UInt8 := 0x1
@[simp] abbrev cmdRdsect : UInt8 := 0x20
@[simp] abbrev cmdWrsect : UInt8 := 0x30

/-- How a call of the driver can fail to return: its fuel is spent while it waits, or the processor
faults. -/
inductive IdeHalt
  | waiting
  | divideError
  deriving DecidableEq

/-! ## The data of the driver -/

/-- The controller executes a command. -/
def busy (status : UInt8) : Bool := status &&& statusBusy ≠ 0

/-- The controller has no sector to read yet. -/
def notReady (status : UInt8) : Bool :=
  status &&& (statusReady ||| statusSeek) ≠ statusReady ||| statusSeek

/-- `struct ide_drive`, as `ide_init` fills it. -/
structure DriveEntry where
  exist : Bool
  msdos : Bool
  maxC : ℤ
  maxH : ℤ
  partitions : ℕ → Partition

/-- The static struct `ide`. -/
structure Ide where
  drives : ℕ → DriveEntry
  driveSel : ℕ

/-- The static struct before `ide_init`. -/
def Ide.zero : Ide := ⟨fun _ => ⟨false, false, 0, 0, fun _ => ⟨0, 0⟩⟩, 0⟩

/-- The channel of a drive. -/
def channelOf (drive : ℕ) : ℕ := if drive < 2 then primaryBase else secondaryBase

/-- `(uint8_t)s` of the masked sector number. -/
def sectorReg (s : ℤ) : UInt8 := .ofNat (s % 256).toNat

/-- `(uint8_t)c` of the masked cylinder number. -/
def syllowReg (c : ℤ) : UInt8 := .ofNat (c % 65536).toNat

/-- `(uint8_t)(c >> 8)` of the masked cylinder number. -/
def sylhighReg (c : ℤ) : UInt8 := .ofNat ((c % 65536).toNat >>> 8)

/-- `(uint8_t)0xa0 | (uint8_t)(drive << 4) | (uint8_t)h` of the masked head number. -/
def selReg (drive : ℕ) (h : ℤ) : UInt8 := 0xa0 ||| .ofNat ((drive % 2) <<< 4) ||| .ofNat (h % 16).toNat

/-- `lba_to_chs`. The division of C truncates, and the processor faults when the divisor is 0. -/
def lbaToChs (ide : Ide) (lba : ℤ) : Except IdeHalt (ℤ × ℤ × ℤ) :=
  let maxH := (ide.drives ide.driveSel).maxH
  if maxH = 0 then .error .divideError
  else .ok ((lba.tdiv 63).tdiv maxH, (lba.tdiv 63).tmod maxH, lba.tmod 63 + 1)

/-- Entry `i` of the partition table in the last bytes of a sector. -/
def Block.partition (b : Block) (i : ℕ) : Partition :=
  ⟨value b.get 4 (446 + 16 * i + 8), value b.get 4 (446 + 16 * i + 12)⟩

/-- The entry that `ide_init` leaves for a drive with boot sector `b`. -/
def DriveEntry.record (drive : DriveEntry) (b : Block) (geometry : ℤ × ℤ) : DriveEntry :=
  let drive : DriveEntry :=
    if value b.get 2 510 = 0xaa55 then
      { drive with
        msdos := true
        partitions := fun i => if i < 4 then b.partition i else drive.partitions i }
    else drive
  { drive with exist := true, maxC := geometry.1, maxH := geometry.2 }

/-! ## The driver -/

/-- What the driver uses of a machine with states `σ`: the port instructions and `printf`. One
`insl` or `outsl` moves a sector. -/
structure IdeBus (σ : Type) where
  inb : (port : ℕ) → σ → UInt8 × σ
  outb : (data : UInt8) → (port : ℕ) → σ → σ
  insl : (port : ℕ) → σ → Block × σ
  outsl : (buf : Block) → (port : ℕ) → σ → σ
  printf : (fmt : String) → (args : List ℤ) → σ → σ

/-- The port writes of `ide_rw_abs`: the registers of the channel, and then the command. -/
def portWrites {σ : Type} (outb : UInt8 → ℕ → σ → σ) (drive : ℕ) (c h s : ℤ) (opcode : UInt8)
    (st : σ) : σ :=
  let base := channelOf drive
  let st := outb 1 (base + portSeccnt) st
  let st := outb (sectorReg s) (base + portSector) st
  let st := outb (syllowReg c) (base + portSyllow) st
  let st := outb (sylhighReg c) (base + portSylhigh) st
  let st := outb (selReg drive h) (base + portSel) st
  outb opcode (base + portCommand) st

namespace IdeBus

variable {σ : Type} (B : IdeBus σ)

/-- `while (p(status = inb(base + PORT_STATUS)));`. -/
def waitWhile (base : ℕ) (p : UInt8 → Bool) : (fuel : ℕ) → σ → Except IdeHalt (UInt8 × σ)
  | 0, _ => .error .waiting
  | fuel + 1, s =>
    let r := B.inb (base + portCommand) s
    if p r.1 then waitWhile base p fuel r.2 else .ok r

/-- The command of `ide_rw_abs`. -/
def issue (drive : ℕ) (c h s : ℤ) (opcode : UInt8) (st : σ) : σ :=
  portWrites B.outb drive c h s opcode st

/-- `ide_rw_abs`: the return value and the buffer. -/
def rwAbs (fuel drive : ℕ) (c h s : ℤ) (buf : Block) (w : Bool) (st : σ) :
    Except IdeHalt (ℤ × Block × σ) := do
  let base := channelOf drive
  let r ← B.waitWhile base busy fuel st
  if w then
    .ok (0, buf, B.outsl buf base (B.issue drive c h s cmdWrsect r.2))
  else
    let r ← B.waitWhile base busy fuel (B.issue drive c h s cmdRdsect r.2)
    if r.1 &&& statusErr ≠ 0 then .ok (-1, buf, r.2)
    else
      let r ← B.waitWhile base notReady fuel r.2
      .ok (0, B.insl base r.2)

/-- `ide_rw`. -/
def rw (ide : Ide) (fuel : ℕ) (c h s : ℤ) (buf : Block) (w : Bool) (st : σ) :
    Except IdeHalt (ℤ × Block × σ) :=
  let drive := ide.drives ide.driveSel
  if 0 ≤ c ∨ c < drive.maxC ∨ 0 ≤ h ∨ h < drive.maxH ∨ 1 ≤ s ∨ s < 63 then
    B.rwAbs fuel ide.driveSel c h s buf w st
  else
    .ok (-1, buf, B.printf "request (%d,%d,%d) out of bounds (%d,%d,%d)\n" [c, h, s, drive.maxC,
      drive.maxH, 63] st)

/-- `ide_write`. -/
def write (ide : Ide) (fuel : ℕ) (c h s : ℤ) (buf : Block) (st : σ) : Except IdeHalt (ℤ × Block × σ) :=
  B.rw ide fuel c h s buf true st

/-- `ide_read`. -/
def read (ide : Ide) (fuel : ℕ) (c h s : ℤ) (buf : Block) (st : σ) : Except IdeHalt (ℤ × Block × σ) :=
  B.rw ide fuel c h s buf false st

/-- `ide_write_lba`. -/
def writeLba (ide : Ide) (lba : ℤ) (buf : Block) (fuel : ℕ) (st : σ) :
    Except IdeHalt (ℤ × Block × σ) := do
  let p ← lbaToChs ide lba
  B.write ide fuel p.1 p.2.1 p.2.2 buf st

/-- `ide_read_lba`. -/
def readLba (ide : Ide) (lba : ℤ) (buf : Block) (fuel : ℕ) (st : σ) :
    Except IdeHalt (ℤ × Block × σ) := do
  let p ← lbaToChs ide lba
  B.read ide fuel p.1 p.2.1 p.2.2 buf st

/-- The loop of `ide_init` that waits for a drive to answer. -/
def answers (base : ℕ) : (retryCnt : ℕ) → σ → Bool × σ
  | 0, s => (false, s)
  | retryCnt + 1, s =>
    let r := B.inb (base + portCommand) s
    if r.1 = 0 then answers base retryCnt r.2 else (true, r.2)

/-- The loops of `ide_init` that count cylinders and heads: sectors are read until one cannot be,
and the counter `n` is moved at most `room` times. -/
def probe (read : ℕ → Block → σ → Except IdeHalt (ℤ × Block × σ)) :
    (room n : ℕ) → Block → σ → Except IdeHalt (ℕ × Block × σ)
  | 0, n, buf, s => do
    let r ← read n buf s
    .ok (n, r.2)
  | room + 1, n, buf, s => do
    let r ← read n buf s
    if 0 ≤ r.1 then probe read room (n + 1) r.2.1 r.2.2 else .ok (n, r.2)

/-- The loop body of `ide_init`, with the contents `buf` of the uninitialised buffer. -/
def initDrive (fuel : ℕ) (buf : Block) (ide : Ide) (drivenum : ℕ) (st : σ) : Except IdeHalt (Ide × σ) :=
  let base := channelOf drivenum
  let present := B.answers base 1000 (B.outb (0xa0 ||| .ofNat ((drivenum % 2) <<< 4))
    (base + portSel) st)
  if present.1 = false then .ok (ide, present.2)
  else do
    let rc ← probe (fun n buf => B.rwAbs fuel drivenum n 0 1 buf false) (1024 + 1) 0 buf present.2
    let rh ← probe (fun n buf => B.rwAbs fuel drivenum 0 n 1 buf false) 16 0 rc.2.1 rc.2.2
    let geometry : ℤ × ℤ := if 1024 < rc.1 then (-1, -1) else (rc.1, rh.1)
    let st := if 1024 < rc.1 then B.printf "failed to probe geometry" [] rh.2.2 else rh.2.2
    let rb ← B.rwAbs fuel drivenum 0 0 1 rh.2.1 false st
    let drive := (ide.drives drivenum).record rb.2.1 geometry
    .ok ({ ide with drives := Function.update ide.drives drivenum drive }, rb.2.2)

/-- `ide_init`, with the contents of the buffer on the stack in each turn of its loop. -/
def init (fuel : ℕ) (stack : ℕ → Block) (ide : Ide) (st : σ) : Except IdeHalt (Ide × σ) :=
  [0, 1, 2, 3].foldlM (fun r drivenum => B.initDrive fuel (stack drivenum) r.1 drivenum r.2) (ide, st)

end IdeBus

/-- `ide_sel`, `none` for the return value -1. -/
def ideSel (ide : Ide) (drivenum : ℕ) : Option Ide :=
  if (ide.drives drivenum).exist = false then none else some { ide with driveSel := drivenum }

/-- The geometries that `ide_init` can leave. -/
def DriveEntry.Probed (d : DriveEntry) : Prop :=
  (0 ≤ d.maxC ∧ d.maxC ≤ 1024) ∧ (0 ≤ d.maxH ∧ d.maxH ≤ 16) ∨ d.maxC = -1 ∧ d.maxH = -1

namespace IdeBus

variable {σ : Type} {B : IdeBus σ} {base : ℕ} {p : UInt8 → Bool} {st : σ}

/-- The first answer that ends the wait is returned. -/
theorem waitWhile_stop (h : p (B.inb (base + portCommand) st).1 = false) :
    Ends (fun fuel => B.waitWhile base p fuel st) (· = B.inb (base + portCommand) st) := by
  refine ⟨1, _, rfl, fun fuel hfuel => ?_⟩
  obtain ⟨fuel, rfl⟩ := Nat.exists_eq_add_of_le' hfuel
  dsimp only
  rw [waitWhile, h]
  rfl

/-- Before it the wait goes on. -/
theorem waitWhile_more {P : UInt8 × σ → Prop} (h : p (B.inb (base + portCommand) st).1 = true)
    (hmore : Ends (fun fuel => B.waitWhile base p fuel (B.inb (base + portCommand) st).2) P) :
    Ends (fun fuel => B.waitWhile base p fuel st) P := by
  obtain ⟨calls, r, hr, hrun⟩ := hmore
  refine ⟨calls + 1, r, hr, fun fuel hfuel => ?_⟩
  obtain ⟨fuel, rfl⟩ := Nat.exists_eq_add_of_le' (show 1 ≤ fuel by omega)
  dsimp only
  rw [waitWhile, if_pos h]
  exact hrun fuel (by omega)

/-- The counter ends at `N` when the reads before it succeed and the one at it fails, or is the last
one. -/
theorem probe_returns {read : ℕ → ℕ → Block → σ → Except IdeHalt (ℤ × Block × σ)} {I : σ → Prop}
    {N room n : ℕ} (hok : ∀ m < N, ∀ buf st, I st → Ends (fun fuel => read fuel m buf st) fun r =>
    0 ≤ r.1 ∧ I r.2.2)
    (hend : ∀ buf st, I st → Ends (fun fuel => read fuel N buf st) fun r => I r.2.2 ∧
      (N = n + room ∨ r.1 < 0))
    (hn : n ≤ N) (hN : N ≤ n + room) (buf : Block) {st : σ} (hst : I st) :
    Ends (fun fuel => probe (read fuel) room n buf st) fun r => r.1 = N ∧ I r.2.2 := by
  induction room generalizing n buf st with
  | zero =>
    obtain rfl : n = N := by omega
    exact (hend buf st hst).bind fun r hr => .ok ⟨rfl, hr.1⟩
  | succ room ih =>
    rcases Nat.eq_or_lt_of_le hn with rfl | hlt
    · refine (hend buf st hst).bind fun r hr => .branch (fun hmore => ?_) fun _ => .ok ⟨rfl, hr.1⟩
      omega
    · refine (hok n hlt buf st hst).bind fun r hr => .branch (fun _ => ?_) fun hstop => absurd hr.1 hstop
      refine ih (fun buf st hst => (hend buf st hst).mono fun r hr => ⟨hr.1, ?_⟩) hlt
        (by omega) r.2.1 hr.2
      omega

/-- The check of `ide_rw` lets every request pass. -/
theorem rw_eq (ide : Ide) (fuel : ℕ) (c h s : ℤ) (buf : Block) (w : Bool) :
    B.rw ide fuel c h s buf w st = B.rwAbs fuel ide.driveSel c h s buf w st := by
  rw [rw]
  exact if_pos (by omega)

/-! ## The geometries that the probe leaves -/

/-- The probe moves its counter no further than it may. -/
theorem probe_le {read : ℕ → Block → σ → Except IdeHalt (ℤ × Block × σ)} {room n : ℕ} {buf : Block}
    {r : ℕ × Block × σ} (h : probe read room n buf st = .ok r) : r.1 ≤ n + room := by
  induction room generalizing n buf st with
  | zero =>
    obtain ⟨_, -, hret⟩ := bind_eq_ok.mp h
    cases hret
    exact le_rfl
  | succ room ih =>
    obtain ⟨_, -, hret⟩ := bind_eq_ok.mp h
    split at hret
    · have hle := ih hret
      omega
    · cases hret
      exact Nat.le_add_right _ _

variable {ide : Ide} {fuel : ℕ}

/-- One turn of the loop of `ide_init` leaves such geometries. -/
theorem initDrive_probed {drivenum : ℕ} {buf : Block} {r : Ide × σ}
    (h : B.initDrive fuel buf ide drivenum st = .ok r) (hbefore : ∀ n, (ide.drives n).Probed) (n : ℕ) :
    (r.1.drives n).Probed := by
  dsimp only [initDrive] at h
  split at h
  · cases h
    exact hbefore n
  · obtain ⟨rc, hc, h⟩ := bind_eq_ok.mp h
    obtain ⟨rh, hh, h⟩ := bind_eq_ok.mp h
    obtain ⟨rb, -, h⟩ := bind_eq_ok.mp h
    have hmaxC := probe_le hc
    have hmaxH := probe_le hh
    cases h
    dsimp only
    rcases eq_or_ne n drivenum with rfl | hne
    · rw [Function.update_self, DriveEntry.record, DriveEntry.Probed]
      dsimp only
      split
      · exact .inr ⟨rfl, rfl⟩
      · exact .inl (by omega)
    · rw [Function.update_of_ne hne]
      exact hbefore n

/-- `ide_init` leaves such geometries. -/
theorem init_probed {stack : ℕ → Block} {r : Ide × σ} (h : B.init fuel stack Ide.zero st = .ok r)
    (n : ℕ) :
    (r.1.drives n).Probed := by
  have hrun : ∀ (l : List ℕ) (s : Ide × σ), (∀ n, (s.1.drives n).Probed) →
      l.foldlM (fun r drivenum => B.initDrive fuel (stack drivenum) r.1 drivenum r.2) s = .ok r →
      ∀ n, (r.1.drives n).Probed := by
    intro l
    induction l with
    | nil =>
      intro s hs hfold
      cases hfold
      exact hs
    | cons drivenum l ih =>
      intro s hs hfold
      rw [List.foldlM_cons] at hfold
      obtain ⟨s', hturn, hfold⟩ := bind_eq_ok.mp hfold
      exact ih s' (initDrive_probed hturn hs) hfold
  exact hrun _ _ (fun _ => .inl (by simp [Ide.zero])) h n

end IdeBus

end Hobby386
