import Hobby386.Fs.State
import Hobby386.Grab.PciScan
import Hobby386.Lib.Fuel

/-!
# The PCI calls on the table of devices

`pci_get_dev` looks for a device in the table that the scan has left, and the other calls take the
index of a device in that table. After a scan they are the calls of an array with one block of
registers for each function that can be reached: an index leads to the registers of its function and
to no others, and the headers stay the ones of the scan. A word or a byte is stored in its lane of
the array where the masks of the driver let it through.
-/

namespace Hobby386

open Lanes Runs Fuel

/-! ## The calls -/

/-- The loop of `pci_get_dev`, from the entry with the index `i` on. -/
def pciGetDevFrom (vendorid deviceid : BitVec 16) : (i : ℕ) → List PciDev → ℤ
  | _, [] => -1
  | i, p :: pcidevs =>
    if vendorid ≠ p.hdr.vendorid then pciGetDevFrom vendorid deviceid (i + 1) pcidevs
    else if deviceid ≠ p.hdr.deviceid then pciGetDevFrom vendorid deviceid (i + 1) pcidevs
    else i

/-- `pci_get_dev`. -/
def pciGetDev (pcidevs : List PciDev) (vendorid deviceid : BitVec 16) : ℤ :=
  pciGetDevFrom vendorid deviceid 0 pcidevs

/-- `pcidevs[dev]`, behind the assertion of the calls that take an index. -/
def pciEntry (pcidevs : List PciDev) (dev : ℤ) : Except Fault PciDev :=
  if (pcidevs.length : ℤ) ≤ dev then .error .panic
  else if dev < 0 then .error .outOfBounds
  else
    match pcidevs[dev.toNat]? with
    | none => .error .outOfBounds
    | some p => if p.hdr.vendorid = 0 then .error .panic else .ok p

/-- A call with the location of a device. -/
def onPciDev {α : Type} (pcidevs : List PciDev) (dev : ℤ) (call : (bus dev func : ℕ) → α) :
    Except Fault α := do
  let p ← pciEntry pcidevs dev
  .ok (call p.bus p.dev p.func)

/-- `pci_read_dword`. -/
def pciDevReadDword (pcidevs : List PciDev) (dev : ℤ) (dwoff : ℕ) (p : Pci) :
    Except Fault (BitVec 32 × Pci) :=
  onPciDev pcidevs dev fun bus dev func => pciReadDword p bus dev func dwoff

/-- `pci_write_dword`. -/
def pciDevWriteDword (pcidevs : List PciDev) (dev : ℤ) (dwoff : ℕ) (data : BitVec 32) (p : Pci) :
    Except Fault Pci :=
  onPciDev pcidevs dev fun bus dev func => pciWriteDword p bus dev func dwoff data

/-- `pci_read_word`. -/
def pciDevReadWord (pcidevs : List PciDev) (dev : ℤ) (woff : ℕ) (p : Pci) :
    Except Fault (BitVec 16 × Pci) :=
  onPciDev pcidevs dev fun bus dev func => pciReadWord p bus dev func woff

/-- `pci_write_word`. -/
def pciDevWriteWord (pcidevs : List PciDev) (dev : ℤ) (woff : ℕ) (data : BitVec 16) (p : Pci) :
    Except Fault Pci :=
  onPciDev pcidevs dev fun bus dev func => pciWriteWord p bus dev func woff data

/-- `pci_read_byte`. -/
def pciDevReadByte (pcidevs : List PciDev) (dev : ℤ) (boff : ℕ) (p : Pci) :
    Except Fault (BitVec 8 × Pci) :=
  onPciDev pcidevs dev fun bus dev func => pciReadByte p bus dev func boff

/-- `pci_write_byte`. -/
def pciDevWriteByte (pcidevs : List PciDev) (dev : ℤ) (boff : ℕ) (data : BitVec 8) (p : Pci) :
    Except Fault Pci :=
  onPciDev pcidevs dev fun bus dev func => pciWriteByte p bus dev func boff data

/-- `pci_read_hdr`. -/
def pciReadHdr (pcidevs : List PciDev) (dev : ℤ) : Except Fault PciHeader := do
  let p ← pciEntry pcidevs dev
  .ok p.hdr

/-- The calls. -/
inductive PciCall
  | getDev (vendorid deviceid : BitVec 16)
  | readHdr (dev : ℤ)
  | readDword (dev : ℤ) (dwoff : ℕ)
  | readWord (dev : ℤ) (woff : ℕ)
  | readByte (dev : ℤ) (boff : ℕ)
  | writeDword (dev : ℤ) (dwoff : ℕ) (data : BitVec 32)
  | writeWord (dev : ℤ) (woff : ℕ) (data : BitVec 16)
  | writeByte (dev : ℤ) (boff : ℕ) (data : BitVec 8)

/-- What they return. -/
inductive PciAnswer
  | done
  | dev (dev : ℤ)
  | header (hdr : PciHeader)
  | dword (data : BitVec 32)
  | word (data : BitVec 16)
  | byte (data : BitVec 8)

/-- A call after a scan has left the table. -/
def PciCall.exec (pcidevs : List PciDev) (call : PciCall) (p : Pci) : Except Fault (PciAnswer × Pci) :=
  match call with
  | getDev vendorid deviceid => .ok (.dev (pciGetDev pcidevs vendorid deviceid), p)
  | readHdr dev => do
    let hdr ← pciReadHdr pcidevs dev
    .ok (.header hdr, p)
  | readDword dev dwoff => do
    let r ← pciDevReadDword pcidevs dev dwoff p
    .ok (.dword r.1, r.2)
  | readWord dev woff => do
    let r ← pciDevReadWord pcidevs dev woff p
    .ok (.word r.1, r.2)
  | readByte dev boff => do
    let r ← pciDevReadByte pcidevs dev boff p
    .ok (.byte r.1, r.2)
  | writeDword dev dwoff data => do
    let p ← pciDevWriteDword pcidevs dev dwoff data p
    .ok (.done, p)
  | writeWord dev woff data => do
    let p ← pciDevWriteWord pcidevs dev woff data p
    .ok (.done, p)
  | writeByte dev boff data => do
    let p ← pciDevWriteByte pcidevs dev boff data p
    .ok (.done, p)

/-! ## The array of registers -/

/-- The registers of each device. -/
abbrev PciRegs := ℕ → ℕ → BitVec 32

/-- A register is changed. -/
def PciRegs.modify (regs : PciRegs) (dev : ℤ) (dwoff : ℕ) (change : BitVec 32 → BitVec 32) : PciRegs :=
  Function.update regs dev.toNat (Function.update (regs dev.toNat) dwoff (change (regs dev.toNat dwoff)))

/-- What a call means for the array, with the headers that the scan has found. -/
def PciCall.meaning (hdrs : List PciHeader) (call : PciCall) (regs : PciRegs) :
    Except Fault (PciAnswer × PciRegs) :=
  match call with
  | getDev vendorid deviceid =>
    match hdrs.findIdx? fun hdr => hdr.vendorid = vendorid ∧ hdr.deviceid = deviceid with
    | none => .ok (.dev (-1), regs)
    | some i => .ok (.dev i, regs)
  | readHdr dev =>
    match hdrs[dev.toNat]? with
    | none => .error .panic
    | some hdr => .ok (.header hdr, regs)
  | readDword dev dwoff => .ok (.dword (regs dev.toNat dwoff), regs)
  | readWord dev woff => .ok (.word (lane 16 (regs dev.toNat (woff / 2)) (woff % 2)), regs)
  | readByte dev boff => .ok (.byte (lane 8 (regs dev.toNat (boff / 4)) (boff % 4)), regs)
  | writeDword dev dwoff data => .ok (.done, regs.modify dev dwoff fun _ => data)
  | writeWord dev woff data => .ok (.done, regs.modify dev (woff / 2) (setLane 16 · (woff % 2) data))
  | writeByte dev boff data => .ok (.done, regs.modify dev (boff / 4) (setLane 8 · (boff % 4) data))

/-- An index of the table, for a device with a vendor. -/
def IsPciDev (hdrs : List PciHeader) (dev : ℤ) : Prop :=
  0 ≤ dev ∧ ∃ hdr, hdrs[dev.toNat]? = some hdr ∧ hdr.vendorid ≠ 0

/-- The driver puts a word into its lane of a dword: the other word is 0, and the old word has no
bits but those of the data. -/
def WordFits (x : BitVec 32) (k : ℕ) (data : BitVec 16) : Prop :=
  (∀ j < 2, j ≠ k → lane 16 x j = 0) ∧ lane 16 x k ||| data = data

/-- The driver puts a byte into its lane of a dword: it is the first byte, its old value has no bits
but those of the data, and the other bytes are 0; or the data are already in the lane and in the one
into which the driver puts them, and the other bytes are 0. -/
def ByteFits (x : BitVec 32) (k : ℕ) (data : BitVec 8) : Prop :=
  (∀ j < 4, j ≠ k → j ≠ 2 * k % 4 → lane 8 x j = 0) ∧
    if k = 0 then lane 8 x k ||| data = data else lane 8 x k = data ∧ lane 8 x (2 * k % 4) = data

/-- The calls that may be made: devices are in the table, offsets lie in the configuration space,
and a word or a byte is written only where the driver puts it into its lane. -/
def PciCall.Fits (hdrs : List PciHeader) (regs : PciRegs) : PciCall → Prop
  | getDev _ _ => True
  | readHdr dev => IsPciDev hdrs dev
  | readDword dev dwoff => IsPciDev hdrs dev ∧ dwoff < 64
  | readWord dev woff => IsPciDev hdrs dev ∧ woff < 128
  | readByte dev boff => IsPciDev hdrs dev ∧ boff < 256
  | writeDword dev dwoff _ => IsPciDev hdrs dev ∧ dwoff < 64
  | writeWord dev woff data => IsPciDev hdrs dev ∧ woff < 128 ∧
    WordFits (regs dev.toNat (woff / 2)) (woff % 2) data
  | writeByte dev boff data => IsPciDev hdrs dev ∧ boff < 256 ∧
    ByteFits (regs dev.toNat (boff / 4)) (boff % 4) data

/-! ## Words and bytes in their lanes -/

section Narrow

variable {p : Pci} {f : PciFunction}

/-- Changing a part of a dword and nothing else is setting a lane. -/
theorem writesOnly_setLane_iff {w n off : ℕ} {read : Pci → PciFunction → ℕ → BitVec w} (hw : 0 < w)
    (hn : w * n = 32) {p' : Pci} {dw : BitVec 32} (hread : ∀ p : Pci, ∀ f off, f.Valid →
      off < 64 * n → read p f off = lane w (p.space f (off / n)) (off % n))
    (hf : f.Valid) (hoff : off < 64 * n)
    (hwrite : p'.space = Function.update p.space f (Function.update (p.space f) (off / n) dw))
    (data : BitVec w) :
    WritesOnly read (64 * n) p p' f off data ↔ p'.space = Function.update p.space f
      (Function.update (p.space f) (off / n) (setLane w (p.space f (off / n)) (off % n) data)) := by
  have hpos : 0 < n := Nat.pos_of_ne_zero fun hzero => by
    rw [hzero, Nat.mul_zero] at hn
    cases hn
  have hset (j : ℕ) (hj : j < n) :=
    lane_setLane (p.space f (off / n)) data (j := j) (k := off % n)
      (show w * (j + 1) ≤ 32 by rw [← hn]; exact Nat.mul_le_mul_left w hj)
  rw [writesOnly_iff hpos hread hf hoff hwrite, hwrite, (Function.update_injective _ _).eq_iff,
    (Function.update_injective _ _).eq_iff]
  constructor
  · intro h
    exact ext_lanes hw hn.ge fun j hj => (h j hj).trans (hset j hj).symm
  · rintro rfl j hj
    exact hset j hj

/-- Whether a write of a word spoils a dword depends on its two words. -/
theorem wordWriteFits_iff (hf : f.Valid) {woff : ℕ} (h : woff < 128) (data : BitVec 16) :
    WordWriteFits p f woff data ↔ WordFits (p.space f (woff / 2)) (woff % 2) data := by
  rw [WordWriteFits, WordFits, word_eq hf h]
  refine and_congr_left' ⟨fun hzero j hj hne => ?_, fun hzero o ho hne => ?_⟩
  · have hword := hzero (woff / 2 * 2 + j) (by omega) (by omega)
    rwa [word_eq hf (by omega), show (woff / 2 * 2 + j) / 2 = woff / 2 by omega,
      show (woff / 2 * 2 + j) % 2 = j by omega] at hword
  · rw [word_eq hf (by omega), ho]
    exact hzero _ (Nat.mod_lt _ (by decide)) (by omega)

/-- And a write of a byte on its four bytes. -/
theorem byteWriteFits_iff (hf : f.Valid) {boff : ℕ} (h : boff < 256) (data : BitVec 8) :
    ByteWriteFits p f boff data ↔ ByteFits (p.space f (boff / 4)) (boff % 4) data := by
  have hbyte (j : ℕ) (hj : j < 4) :
      p.byte f (boff / 4 * 4 + j) = lane 8 (p.space f (boff / 4)) j := by
    rw [byte_eq hf (by omega), show (boff / 4 * 4 + j) / 4 = boff / 4 by omega,
      show (boff / 4 * 4 + j) % 4 = j by omega]
  rw [ByteWriteFits, ByteFits, byte_eq hf h, shiftedByte, hbyte _ (Nat.mod_lt _ (by decide))]
  refine and_congr_left' ⟨fun hzero j hj hne hne' => ?_, fun hzero o ho hne hne' => ?_⟩
  · rw [← hbyte j hj]
    exact hzero _ (by omega) (by omega) (by omega)
  · rw [byte_eq hf (by omega), ho]
    exact hzero _ (Nat.mod_lt _ (by decide)) (by omega) (by omega)

/-- The driver writes a word into its lane, and nothing else, exactly when it fits. -/
theorem pciWriteWord_setLane_iff (hf : f.Valid) {woff : ℕ} (h : woff < 128) (data : BitVec 16) :
    (pciWriteWord p f.bus f.dev f.func woff data).space = Function.update p.space f
        (Function.update (p.space f) (woff / 2) (setLane 16 (p.space f (woff / 2)) (woff % 2) data)) ↔
      WordFits (p.space f (woff / 2)) (woff % 2) data := by
  obtain ⟨dw, hwrite, -⟩ := pciWriteWord_space hf h p data
  rw [← wordWriteFits_iff hf h, ← pciWriteWord_writesOnly_iff hf h]
  exact (writesOnly_setLane_iff (by decide) rfl (fun p f off hf hoff => word_eq hf hoff p) hf h
    hwrite data).symm

/-- And a byte. -/
theorem pciWriteByte_setLane_iff (hf : f.Valid) {boff : ℕ} (h : boff < 256) (data : BitVec 8) :
    (pciWriteByte p f.bus f.dev f.func boff data).space = Function.update p.space f
        (Function.update (p.space f) (boff / 4) (setLane 8 (p.space f (boff / 4)) (boff % 4) data)) ↔
      ByteFits (p.space f (boff / 4)) (boff % 4) data := by
  obtain ⟨dw, hwrite, -⟩ := pciWriteByte_space hf h p data
  rw [← byteWriteFits_iff hf h, ← pciWriteByte_writesOnly_iff hf h]
  exact (writesOnly_setLane_iff (by decide) rfl (fun p f off hf hoff => byte_eq hf hoff p) hf h
    hwrite data).symm

end Narrow

/-! ## Looking for a device -/

/-- The loop finds the first entry with the two numbers. -/
theorem pciGetDevFrom_eq (vendorid deviceid : BitVec 16) (i : ℕ) (pcidevs : List PciDev) :
    pciGetDevFrom vendorid deviceid i pcidevs =
      match (pcidevs.map PciDev.hdr).findIdx? fun hdr => hdr.vendorid = vendorid ∧
      hdr.deviceid = deviceid with
      | none => -1
      | some j => (i + j : ℕ) := by
  induction pcidevs generalizing i with
  | nil => rfl
  | cons d pcidevs ih =>
    rw [List.map_cons, List.findIdx?_cons]
    by_cases hfound : d.hdr.vendorid = vendorid ∧ d.hdr.deviceid = deviceid
    · rw [if_pos (decide_eq_true hfound), pciGetDevFrom, if_neg (not_not_intro hfound.1.symm),
        if_neg (not_not_intro hfound.2.symm)]
      rfl
    · have hnext : pciGetDevFrom vendorid deviceid i (d :: pcidevs) =
          pciGetDevFrom vendorid deviceid (i + 1) pcidevs := by
        rw [pciGetDevFrom]
        split
        · rfl
        · rename_i hvendor
          refine if_pos fun hdevice => hfound ⟨?_, hdevice.symm⟩
          exact (not_not.mp hvendor).symm
      rw [hnext, ih, if_neg (by simpa using hfound)]
      cases (pcidevs.map PciDev.hdr).findIdx? _ with
      | none => rfl
      | some j =>
        change ((i + 1 + j : ℕ) : ℤ) = (i + (j + 1) : ℕ)
        rw [Nat.add_right_comm, Nat.add_assoc]

/-! ## The registers of the functions in the table -/

variable {p₀ p p' : Pci} {l : List PciFunction} {regs regs' : PciRegs} {dev : ℤ} {d : ℕ}

/-- The entries for some functions. -/
def Pci.table (p : Pci) (l : List PciFunction) : List PciDev := l.map p.record

/-- Their headers. -/
def Pci.headers (p : Pci) (l : List PciFunction) : List PciHeader := (p.table l).map PciDev.hdr

/-- The array holds the registers of the functions in a list, and the other functions are as they
were. -/
structure PciRegs.Shows (p₀ : Pci) (l : List PciFunction) (regs : PciRegs) (p : Pci) : Prop where
  listed : ∀ i (hi : i < l.length), p.space l[i] = regs i
  others : ∀ f ∉ l, p.space f = p₀.space f

/-- The index of a device leads to its function. -/
theorem IsPciDev.entry (h : IsPciDev (p₀.headers l) dev) :
    ∃ hi : dev.toNat < l.length, pciEntry (p₀.table l) dev = .ok (p₀.record l[dev.toNat]) := by
  obtain ⟨hlow, hdr, hget, hvendor⟩ := h
  rw [Pci.headers, Pci.table, List.map_map, List.getElem?_map, Option.map_eq_some_iff] at hget
  obtain ⟨f, hf, rfl⟩ := hget
  obtain ⟨hi, rfl⟩ := List.getElem?_eq_some_iff.mp hf
  refine ⟨hi, ?_⟩
  have hentry : (p₀.table l)[dev.toNat]? = some (p₀.record l[dev.toNat]) := by
    rw [Pci.table, List.getElem?_map, hf]
    rfl
  rw [pciEntry, if_neg (by rw [Pci.table, List.length_map]; omega), if_neg (by omega), hentry]
  exact if_neg hvendor

/-- A call is made at the location of its device. -/
theorem IsPciDev.on {α : Type} (h : IsPciDev (p₀.headers l) dev) (call : (bus dev func : ℕ) → α) :
    ∃ hi : dev.toNat < l.length, onPciDev (p₀.table l) dev call =
      .ok (call l[dev.toNat].bus l[dev.toNat].dev l[dev.toNat].func) := by
  obtain ⟨hi, hentry⟩ := h.entry
  exact ⟨hi, by rw [onPciDev, hentry]; rfl⟩

namespace PciRegs.Shows

/-- What the registers show only depends on the configuration space. -/
theorem congr (h : regs.Shows p₀ l p) (hspace : p'.space = p.space) : regs.Shows p₀ l p' := by
  constructor
  · rw [hspace]
    exact h.listed
  · rw [hspace]
    exact h.others

/-- A register that is written is changed in the array. -/
theorem modify (h : regs.Shows p₀ l p) (hnodup : l.Nodup) (hi : dev.toNat < l.length)
    {change : BitVec 32 → BitVec 32} (hspace : p'.space = Function.update p.space l[dev.toNat]
      (Function.update (p.space l[dev.toNat]) d (change (p.space l[dev.toNat] d)))) :
    (regs.modify dev d change).Shows p₀ l p' := by
  constructor
  · intro i hlt
    rw [hspace, PciRegs.modify]
    by_cases heq : i = dev.toNat
    · subst heq
      rw [Function.update_self, Function.update_self, h.listed]
    · rw [Function.update_of_ne heq, Function.update_of_ne fun hsame =>
        heq (hnodup.getElem_inj_iff.mp hsame), h.listed]
  · intro f hf
    rw [hspace, Function.update_of_ne (fun hsame => hf (by rw [hsame]; exact List.getElem_mem hi)),
      h.others f hf]

/-- A call on a device is answered as the array answers it. -/
theorem exec (h : regs.Shows p₀ l p) (hnodup : l.Nodup) (hvalid : ∀ f ∈ l, f.Valid) {call : PciCall}
    {answer : PciAnswer} (hfits : call.Fits (p₀.headers l) regs)
    (hmeaning : call.meaning (p₀.headers l) regs = .ok (answer, regs')) :
    ∃ p', call.exec (p₀.table l) p = .ok (answer, p') ∧ regs'.Shows p₀ l p' := by
  have hlisted : ∀ {i} (hi : i < l.length), l[i].Valid := fun hi => hvalid _ (List.getElem_mem hi)
  cases call with
  | getDev vendorid deviceid =>
    refine ⟨p, ?_, ?_⟩
    · rw [PciCall.exec, pciGetDev, pciGetDevFrom_eq]
      rw [PciCall.meaning, Pci.headers] at hmeaning
      split at hmeaning <;> cases hmeaning <;> simp [*]
    · rw [PciCall.meaning] at hmeaning
      split at hmeaning <;> cases hmeaning <;> exact h
  | readHdr dev =>
    obtain ⟨hi, hentry⟩ := IsPciDev.entry hfits
    have hget : (p₀.headers l)[dev.toNat]? = some (p₀.record l[dev.toNat]).hdr := by
      rw [Pci.headers, Pci.table, List.map_map, List.getElem?_map, List.getElem?_eq_getElem hi]
      rfl
    rw [PciCall.meaning, hget] at hmeaning
    cases hmeaning
    exact ⟨p, by rw [PciCall.exec, pciReadHdr, hentry]; rfl, h⟩
  | readDword dev dwoff =>
    obtain ⟨hi, hon⟩ := hfits.1.on fun bus dev func => pciReadDword p bus dev func dwoff
    obtain ⟨hread, hspace⟩ := pciReadDword_eq (hlisted hi) hfits.2 p
    cases hmeaning
    refine ⟨_, ?_, h.congr hspace⟩
    rw [PciCall.exec, pciDevReadDword, hon, ok_bind, hread, h.listed]
  | readWord dev woff =>
    obtain ⟨hi, hon⟩ := hfits.1.on fun bus dev func => pciReadWord p bus dev func woff
    have hlt := hfits.2
    obtain ⟨hread, hspace⟩ := pciReadDword_eq (hlisted hi) (show woff / 2 < 64 by omega) p
    cases hmeaning
    refine ⟨_, ?_, h.congr hspace⟩
    rw [PciCall.exec, pciDevReadWord, hon, ok_bind, pciReadWord, hread, h.listed]
    rfl
  | readByte dev boff =>
    obtain ⟨hi, hon⟩ := hfits.1.on fun bus dev func => pciReadByte p bus dev func boff
    have hlt := hfits.2
    obtain ⟨hread, hspace⟩ := pciReadDword_eq (hlisted hi) (show boff / 4 < 64 by omega) p
    cases hmeaning
    refine ⟨_, ?_, h.congr hspace⟩
    rw [PciCall.exec, pciDevReadByte, hon, ok_bind, pciReadByte, hread, h.listed]
    rfl
  | writeDword dev dwoff data =>
    obtain ⟨hi, hon⟩ := hfits.1.on fun bus dev func => pciWriteDword p bus dev func dwoff data
    cases hmeaning
    refine ⟨_, by rw [PciCall.exec, pciDevWriteDword, hon, ok_bind], h.modify hnodup hi ?_⟩
    exact pciWriteDword_space (hlisted hi) hfits.2 p data
  | writeWord dev woff data =>
    obtain ⟨hdev, hlt, hlane⟩ := hfits
    obtain ⟨hi, hon⟩ := hdev.on fun bus dev func => pciWriteWord p bus dev func woff data
    rw [← h.listed _ hi, ← pciWriteWord_setLane_iff (hlisted hi) hlt] at hlane
    cases hmeaning
    exact ⟨_, by rw [PciCall.exec, pciDevWriteWord, hon, ok_bind], h.modify hnodup hi hlane⟩
  | writeByte dev boff data =>
    obtain ⟨hdev, hlt, hlane⟩ := hfits
    obtain ⟨hi, hon⟩ := hdev.on fun bus dev func => pciWriteByte p bus dev func boff data
    rw [← h.listed _ hi, ← pciWriteByte_setLane_iff (hlisted hi) hlt] at hlane
    cases hmeaning
    exact ⟨_, by rw [PciCall.exec, pciDevWriteByte, hon, ok_bind], h.modify hnodup hi hlane⟩

end PciRegs.Shows

/-! ## After the scan -/

/-- The registers of the functions in a list. -/
def Pci.registers (p : Pci) (l : List PciFunction) : PciRegs :=
  fun i => (l[i]?.map p.space).getD fun _ => 0

/-- The registers of a bus show it. -/
theorem registers_shows (p : Pci) (l : List PciFunction) : (p.registers l).Shows p l p :=
  ⟨fun i hi => by rw [Pci.registers, List.getElem?_eq_getElem hi]; rfl, fun _ _ => rfl⟩

/-- A scan that has ended tells how many they are. -/
theorem encard_of_scan (htree : p.IsBusTree) {fuel : ℕ} {pcidevs : List PciDev}
    (h : pciProbDev p fuel = some pcidevs) : {f | p.Reached f}.encard = pcidevs.length := by
  obtain ⟨l, hnodup, hmem, calls, hscan⟩ := htree.scan
  obtain ⟨l', hwalk, rfl⟩ := pciProbDev_eq_some.mp h
  have hlater := pciProbDev_eq_some.mpr ⟨l', Walk.walk_mono (le_max_left fuel calls) hwalk, rfl⟩
  rw [hscan _ (le_max_right fuel calls)] at hlater
  rw [encard_reached hnodup hmem, ← Option.some.inj hlater, List.length_map]

/-- On a machine whose buses form a tree, with room in the table for the functions that are reached,
the scan leaves a table on which every sequence of calls for its devices is answered by an array of
registers: the index from `pci_get_dev` is the one of the first device with the numbers, a read
finds what has been written for the same device last, a word or a byte that the driver puts into its
lane changes nothing else, the headers are the ones of the scan, and only functions in the table are
written. -/
theorem pci_calls_refine (htree : p.IsBusTree) (hroom : {f | p.Reached f}.encard ≤ npcidevMax) :
    ∃ l : List PciFunction, l.Nodup ∧ l.length ≤ npcidevMax ∧ (∀ f, f ∈ l ↔ p.Reached f) ∧
      ∃ calls, ∀ fuel ≥ calls, ∃ pcidevs, pciProbDev p fuel = some pcidevs ∧
        ∀ t regs, Run (PciCall.meaning (p.headers l)) (fun _ => PciCall.Fits (p.headers l))
          (p.registers l) t regs →
          ∃ p', execAll (PciCall.exec pcidevs) (t.map Prod.fst) p = .ok (t, p') ∧ regs.Shows p l p' := by
  obtain ⟨l, hnodup, hmem, calls, hscan⟩ := htree.scan
  have hvalid : ∀ f ∈ l, f.Valid := fun f hf => ((hmem f).mp hf).1.valid
  refine ⟨l, hnodup, ?_, hmem, calls,
    fun fuel hfuel => ⟨p.table l, hscan fuel hfuel, fun t regs hrun => ?_⟩⟩
  · rwa [encard_reached hnodup hmem, Nat.cast_le] at hroom
  · have hends : Ends (fun _ => execAll (PciCall.exec (p.table l)) (t.map Prod.fst) p)
        fun r => r.1 = t ∧ regs.Shows p l r.2 :=
      ends_of_run (R := fun regs p' => PciRegs.Shows p l regs p')
        (fun c regs answer regs' p' hshows hfits hmeaning => by
        obtain ⟨p'', hcall, hshows'⟩ := hshows.exec hnodup hvalid hfits hmeaning
        exact ⟨0, _, ⟨rfl, hshows'⟩, fun _ _ => hcall⟩) hrun (registers_shows p l)
    obtain ⟨_, ⟨_, p'⟩, ⟨rfl, hshows⟩, hexec⟩ := hends
    exact ⟨p', hexec _ le_rfl, hshows⟩

/-- The functions of the machine without bridges, and what their registers hold. -/
theorem flatBus_reached {n : ℕ} {f : PciFunction} (h : (flatBus n).Reached f) :
    (flatBus n).space f = fun d => if d = 0 then 0x00011011 else 0 := by
  have hvendor := h.1.vendor
  rw [word_eq h.1.valid (by decide)] at hvendor
  funext d
  simp only [flatBus] at hvendor ⊢
  split
  · rfl
  · rename_i hout
    rw [if_neg hout] at hvendor
    exact absurd rfl hvendor

/-- Two devices on one bus: the first one is found, its command word is written, and the dword
around it is read. -/
theorem pci_calls_refine_flat : ∃ calls, ∀ fuel ≥ calls, ∃ pcidevs, pciProbDev (flatBus 2) fuel =
    some pcidevs ∧
    ∃ p', execAll (PciCall.exec pcidevs) [.getDev 0x1011 1, .writeWord 0 2 5, .readDword 0 1]
      (flatBus 2) =
      .ok ([(.getDev 0x1011 1, .dev 0), (.writeWord 0 2 5, .done), (.readDword 0 1, .dword 5)], p') := by
  have hlength : (pciProbDev (flatBus 2) 1).map List.length = some 2 := by decide +kernel
  obtain ⟨pcidevs, hscan, hsize⟩ := Option.map_eq_some_iff.mp hlength
  have hroom : {f | (flatBus 2).Reached f}.encard ≤ npcidevMax := by
    rw [encard_of_scan (flatBus_isBusTree 2) hscan, hsize]
    decide
  obtain ⟨l, -, -, hmem, calls, hcalls⟩ := pci_calls_refine (flatBus_isBusTree 2) hroom
  obtain ⟨f, l', rfl⟩ : ∃ f l', l = f :: l' := by
    refine List.exists_cons_of_ne_nil fun hnil => ?_
    have hempty : {f | (flatBus 2).Reached f}.encard = 0 := by
      rw [Set.encard_eq_zero, Set.eq_empty_iff_forall_notMem]
      intro f hf
      rw [hnil] at hmem
      exact absurd ((hmem f).mpr hf) List.not_mem_nil
    rw [encard_of_scan (flatBus_isBusTree 2) hscan, hsize] at hempty
    exact absurd hempty (by decide)
  have hreached := (hmem f).mp (.head _)
  have hspace := flatBus_reached hreached
  have hwords : (flatBus 2).word f 0 = 0x1011 ∧ (flatBus 2).word f 1 = 1 := by
    rw [word_eq hreached.1.valid (by decide), word_eq hreached.1.valid (by decide), hspace]
    decide
  have hdev : IsPciDev ((flatBus 2).headers (f :: l')) 0 := ⟨le_rfl, _, rfl, by
    change (flatBus 2).word f 0 ≠ 0
    rw [hwords.1]
    decide⟩
  have hregister : (flatBus 2).registers (f :: l') 0 1 = 0 := congrFun hspace 1
  have hfound : PciCall.meaning ((flatBus 2).headers (f :: l')) (.getDev 0x1011 1)
      ((flatBus 2).registers (f :: l')) = .ok (.dev 0, (flatBus 2).registers (f :: l')) := by
    have hindex : ((flatBus 2).headers (f :: l')).findIdx? (fun hdr => hdr.vendorid = 0x1011 ∧
        hdr.deviceid = 1) =
        some 0 := by
      rw [Pci.headers, Pci.table, List.map_cons, List.map_cons, List.findIdx?_cons]
      exact if_pos (decide_eq_true hwords)
    rw [PciCall.meaning, hindex]
    rfl
  have hwrite : PciCall.Fits ((flatBus 2).headers (f :: l')) ((flatBus 2).registers (f :: l'))
      (.writeWord 0 2 5) := by
    refine ⟨hdev, by decide, ?_⟩
    change WordFits ((flatBus 2).registers (f :: l') 0 1) 0 5
    rw [hregister]
    exact ⟨by decide, by decide⟩
  have hread : PciCall.meaning ((flatBus 2).headers (f :: l')) (.readDword 0 1)
      (((flatBus 2).registers (f :: l')).modify 0 1 (setLane 16 · 0 5)) =
        .ok (.dword 5, ((flatBus 2).registers (f :: l')).modify 0 1 (setLane 16 · 0 5)) := by
    have hset : setLane 16 (0 : BitVec 32) 0 5 = 5 := by decide
    rw [PciCall.meaning, PciRegs.modify, Int.toNat_zero, Function.update_self, Function.update_self,
      hregister, hset]
  have hfits (regs : PciRegs) : PciCall.Fits ((flatBus 2).headers (f :: l')) regs (.readDword 0 1) :=
    ⟨hdev, by decide⟩
  refine ⟨calls, fun fuel hfuel => ?_⟩
  obtain ⟨pcidevs, hprob, hruns⟩ := hcalls fuel hfuel
  obtain ⟨p', hexec, -⟩ := hruns _ _ (((Run.start.call trivial hfound).call hwrite rfl).call
    (hfits _) hread)
  exact ⟨pcidevs, hprob, p', hexec⟩

end Hobby386
