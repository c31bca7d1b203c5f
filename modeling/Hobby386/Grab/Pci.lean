import Hobby386.Lib.Lanes
import Mathlib.Algebra.Order.Ring.Nat
import Mathlib.Logic.Function.Basic

/-!
# The PCI configuration space

The configuration space of a function is an array of 64 dwords behind an address and a data
register. Words and bytes are lanes of the dwords: they are read by a shift and written by changing
the dword in between.
-/

namespace Hobby386

open Lanes

/-- `PORT_ADDR`. -/
@[simp] abbrev pciPortAddr : ℕ := 0xcf8

/-- `PORT_DATA`. -/
@[simp] abbrev pciPortData : ℕ := 0xcfc

/-- A function of a device on a bus. -/
structure PciFunction where
  bus : ℕ
  dev : ℕ
  func : ℕ
  deriving DecidableEq

/-- The controller: its address register and the configuration spaces behind it. -/
structure Pci where
  addr : BitVec 32
  space : PciFunction → ℕ → BitVec 32

/-- The function that the address register selects. -/
def Pci.function (p : Pci) : PciFunction where
  bus := (p.addr.toNat >>> 16) % 256
  dev := (p.addr.toNat >>> 11) % 32
  func := (p.addr.toNat >>> 8) % 8

/-- The dword that the address register selects. -/
def Pci.register (p : Pci) : ℕ := (p.addr.toNat >>> 2) % 64

/-- `outl`. -/
def Pci.outl (p : Pci) (data : BitVec 32) (port : ℕ) : Pci :=
  if port = pciPortAddr then { p with addr := data }
  else if port = pciPortData then
    { p with
      space := Function.update p.space p.function
        (Function.update (p.space p.function) p.register data) }
  else p

/-- `inl(PORT_DATA)`. -/
def Pci.inl (p : Pci) : BitVec 32 := p.space p.function p.register

/-- `mkaddr`. -/
def mkaddr (enable bus dev func off : ℕ) : BitVec 32 :=
  ((BitVec.ofNat 32 enable &&& 1) <<< 31) ||| ((BitVec.ofNat 32 bus &&& 0xff) <<< 16) |||
    ((BitVec.ofNat 32 dev &&& 0x1f) <<< 11) ||| ((BitVec.ofNat 32 func &&& 7) <<< 8) |||
    BitVec.ofNat 32 off

/-- `_pci_read_dword`. -/
def pciReadDword (p : Pci) (bus dev func dwoff : ℕ) : BitVec 32 × Pci :=
  let p := p.outl (mkaddr 1 bus dev func (dwoff <<< 2)) pciPortAddr
  (p.inl, p)

/-- `_pci_write_dword`. -/
def pciWriteDword (p : Pci) (bus dev func dwoff : ℕ) (data : BitVec 32) : Pci :=
  let p := p.outl (mkaddr 1 bus dev func (dwoff <<< 2)) pciPortAddr
  p.outl data pciPortData

/-- `_pci_read_word`. -/
def pciReadWord (p : Pci) (bus dev func woff : ℕ) : BitVec 16 × Pci :=
  let r := pciReadDword p bus dev func (woff / 2)
  ((r.1 >>> (16 * (woff % 2))).setWidth 16, r.2)

/-- `_pci_write_word`. -/
def pciWriteWord (p : Pci) (bus dev func woff : ℕ) (data : BitVec 16) : Pci :=
  let r := pciReadDword p bus dev func (woff / 2)
  let dw := (r.1 &&& ((0xffff : BitVec 32) <<< (16 * (woff % 2)))) ||| (data.setWidth
    32 <<< (16 * (woff % 2)))
  pciWriteDword r.2 bus dev func (woff / 2) dw

/-- `_pci_read_byte`. -/
def pciReadByte (p : Pci) (bus dev func boff : ℕ) : BitVec 8 × Pci :=
  let r := pciReadDword p bus dev func (boff / 4)
  ((r.1 >>> (8 * (boff % 4))).setWidth 8, r.2)

/-- `_pci_write_byte`. The data are shifted by a multiple of 16, of which the processor takes the
remainder by 32. -/
def pciWriteByte (p : Pci) (bus dev func boff : ℕ) (data : BitVec 8) : Pci :=
  let r := pciReadDword p bus dev func (boff / 4)
  let dw := (r.1 &&& ((0xff : BitVec 32) <<< (8 * (boff % 4)))) ||| (data.setWidth
    32 <<< (16 * (boff % 4) % 32))
  pciWriteDword r.2 bus dev func (boff / 4) dw

/-! ## The registers -/

/-- The location of a function fits the fields of the address register. -/
structure PciFunction.Valid (f : PciFunction) : Prop where
  bus : f.bus < 256
  dev : f.dev < 32
  func : f.func < 8

/-- A field of the address, moved to its place. -/
theorem toNat_field {n w i : ℕ} {mask : BitVec 32} (hmask : mask.toNat = 2 ^ w - 1) (hn : n < 2 ^ w)
    (hw : w + i ≤ 32) : ((BitVec.ofNat 32 n &&& mask) <<< i).toNat = 2 ^ i * n := by
  have hfits : 2 ^ w ≤ 2 ^ 32 := Nat.pow_le_pow_right (by decide) (by omega)
  have hmoved : n * 2 ^ i < 2 ^ 32 := by
    calc n * 2 ^ i < 2 ^ w * 2 ^ i := Nat.mul_lt_mul_of_pos_right hn (Nat.two_pow_pos i)
      _ = 2 ^ (w + i) := (pow_add 2 w i).symm
      _ ≤ 2 ^ 32 := Nat.pow_le_pow_right (by decide) hw
  rw [BitVec.toNat_shiftLeft, BitVec.toNat_and, hmask, BitVec.toNat_ofNat,
    Nat.mod_eq_of_lt (Nat.lt_of_lt_of_le hn hfits),
    Nat.and_two_pow_sub_one_eq_mod, Nat.mod_eq_of_lt hn, Nat.shiftLeft_eq, Nat.mod_eq_of_lt hmoved,
    mul_comm]

/-- The fields of an address do not overlap. -/
theorem toNat_mkaddr {bus dev func off : ℕ} (hbus : bus < 2 ^ 8) (hdev : dev < 2 ^ 5)
    (hfunc : func < 2 ^ 3) (hoff : off < 2 ^ 8) :
    (mkaddr 1 bus dev func off).toNat = 2 ^ 31 + 2 ^ 16 * bus + 2 ^ 11 * dev + 2 ^ 8 * func + off := by
  have hfields : (mkaddr 1 bus dev func off).toNat =
      2 ^ 31 * 1 ||| 2 ^ 16 * bus ||| 2 ^ 11 * dev ||| 2 ^ 8 * func ||| off := by
    rw [mkaddr, BitVec.toNat_or, BitVec.toNat_or, BitVec.toNat_or, BitVec.toNat_or,
      toNat_field (w := 1) rfl (by decide) (by decide), toNat_field rfl hbus (by decide),
      toNat_field rfl hdev (by decide), toNat_field rfl hfunc (by decide), BitVec.toNat_ofNat,
      Nat.mod_eq_of_lt (Nat.lt_trans hoff (by decide))]
  rw [hfields, ← Nat.two_pow_add_eq_or_of_lt (by omega),
    show 2 ^ 31 * 1 + 2 ^ 16 * bus = 2 ^ 16 * (2 ^ 15 + bus) by omega, ← Nat.two_pow_add_eq_or_of_lt
      (by omega),
    show 2 ^ 16 * (2 ^ 15 + bus) + 2 ^ 11 * dev = 2 ^ 11 * (2 ^ 20 + 2 ^ 5 * bus + dev) by omega,
    ← Nat.two_pow_add_eq_or_of_lt (by omega),
    show 2 ^ 11 * (2 ^ 20 + 2 ^ 5 * bus + dev) + 2 ^ 8 * func =
      2 ^ 8 * (2 ^ 23 + 2 ^ 8 * bus + 2 ^ 3 * dev + func) by omega,
    ← Nat.two_pow_add_eq_or_of_lt hoff]
  omega

variable {p : Pci} {f : PciFunction} {d : ℕ}

/-- The address register selects the function and the dword that it has been set to. -/
theorem outl_mkaddr (hf : f.Valid) (hd : d < 64) (p : Pci) :
    (p.outl (mkaddr 1 f.bus f.dev f.func (d <<< 2)) pciPortAddr).function = f ∧
      (p.outl (mkaddr 1 f.bus f.dev f.func (d <<< 2)) pciPortAddr).register = d := by
  have hoff : d <<< 2 = 4 * d := by rw [Nat.shiftLeft_eq, mul_comm]
  obtain ⟨hbus, hdev, hfunc⟩ := hf
  obtain ⟨bus, dev, func⟩ := f
  dsimp only at hbus hdev hfunc
  rw [hoff, Pci.outl, if_pos rfl]
  simp only [Pci.function, Pci.register, toNat_mkaddr hbus hdev hfunc (show 4 * d < 2 ^ 8 by omega),
    Nat.shiftRight_eq_div_pow, PciFunction.mk.injEq]
  omega

/-- `_pci_read_dword` reads its dword and changes no configuration space. -/
theorem pciReadDword_eq (hf : f.Valid) (hd : d < 64) (p : Pci) :
    (pciReadDword p f.bus f.dev f.func d).1 = p.space f d ∧
      (pciReadDword p f.bus f.dev f.func d).2.space = p.space := by
  obtain ⟨hfunction, hregister⟩ := outl_mkaddr hf hd p
  constructor
  · rw [pciReadDword, Pci.inl, hfunction, hregister]
    rfl
  · rfl

/-- `_pci_write_dword` writes its dword and no other one. -/
theorem pciWriteDword_space (hf : f.Valid) (hd : d < 64) (p : Pci) (data : BitVec 32) :
    (pciWriteDword p f.bus f.dev f.func d data).space =
      Function.update p.space f (Function.update (p.space f) d data) := by
  obtain ⟨hfunction, hregister⟩ := outl_mkaddr hf hd p
  rw [pciWriteDword, Pci.outl, if_neg (by decide), if_pos rfl, hfunction, hregister]
  rfl

/-! ## Words and bytes -/

/-- The value of `_pci_read_word`. -/
def Pci.word (p : Pci) (f : PciFunction) (woff : ℕ) : BitVec 16 :=
  (pciReadWord p f.bus f.dev f.func woff).1

/-- The value of `_pci_read_byte`. -/
def Pci.byte (p : Pci) (f : PciFunction) (boff : ℕ) : BitVec 8 :=
  (pciReadByte p f.bus f.dev f.func boff).1

/-- After a write the target reads as the data, and the rest of the `n` units of every function as
before. -/
def WritesOnly {w : ℕ} (read : Pci → PciFunction → ℕ → BitVec w) (n : ℕ) (p p' : Pci)
    (f : PciFunction) (off : ℕ) (data : BitVec w) : Prop :=
  read p' f off = data ∧
    ∀ f' off', f'.Valid → off' < n → (f', off') ≠ (f, off) → read p' f' off' = read p f' off'

/-- A word of the configuration space is a lane of its dword. -/
theorem word_eq (hf : f.Valid) {woff : ℕ} (h : woff < 128) (p : Pci) :
    p.word f woff = lane 16 (p.space f (woff / 2)) (woff % 2) := by
  rw [Pci.word, pciReadWord, (pciReadDword_eq hf (by omega) p).1, lane]

/-- A byte of the configuration space is a lane of its dword. -/
theorem byte_eq (hf : f.Valid) {boff : ℕ} (h : boff < 256) (p : Pci) :
    p.byte f boff = lane 8 (p.space f (boff / 4)) (boff % 4) := by
  rw [Pci.byte, pciReadByte, (pciReadDword_eq hf (by omega) p).1, lane]

/-- A changed dword is right if and only if its lanes are. -/
theorem writesOnly_iff {w n off : ℕ} {read : Pci → PciFunction → ℕ → BitVec w} (hn : 0 < n) {p p' : Pci}
    {dw : BitVec 32} (hread : ∀ p : Pci, ∀ f off, f.Valid → off < 64 * n →
      read p f off = lane w (p.space f (off / n)) (off % n))
    (hf : f.Valid) (hoff : off < 64 * n)
    (hwrite : p'.space = Function.update p.space f (Function.update (p.space f) (off / n) dw))
    (data : BitVec w) :
    WritesOnly read (64 * n) p p' f off data ↔
      ∀ j < n, lane w dw j = if j = off % n then data else lane w (p.space f (off / n)) j := by
  have hsame : p'.space f (off / n) = dw := by rw [hwrite, Function.update_self, Function.update_self]
  have hmod : off % n < n := Nat.mod_lt _ hn
  constructor
  · rintro ⟨htarget, hothers⟩ j hj
    have hdiv : (n * (off / n) + j) / n = off / n := by
      rw [Nat.mul_add_div hn, Nat.div_eq_of_lt hj, Nat.add_zero]
    have hlane : (n * (off / n) + j) % n = j := by rw [Nat.mul_add_mod, Nat.mod_eq_of_lt hj]
    split
    · rename_i h
      rw [hread _ _ _ hf hoff, hsame, ← h] at htarget
      exact htarget
    · rename_i h
      have hlt : n * (off / n) + j < 64 * n := by
        have hbound : off / n < 64 := Nat.div_lt_of_lt_mul (by rwa [mul_comm])
        calc n * (off / n) + j < n * (off / n) + n := by omega
          _ = n * (off / n + 1) := (Nat.mul_add_one _ _).symm
          _ ≤ n * 64 := Nat.mul_le_mul_left _ hbound
          _ = 64 * n := mul_comm _ _
      have hother := hothers f (n * (off / n) + j) hf hlt fun heq => h (by
        rw [← (Prod.mk.inj heq).2, hlane])
      rwa [hread _ _ _ hf hlt, hread _ _ _ hf hlt, hdiv, hlane, hsame] at hother
  · intro h
    refine ⟨?_, fun f' off' hf' hoff' hne => ?_⟩
    · rw [hread _ _ _ hf hoff, hsame, h _ hmod, if_pos rfl]
    · rw [hread _ _ _ hf' hoff', hread _ _ _ hf' hoff']
      by_cases hfun : f' = f
      · subst hfun
        by_cases hdw : off' / n = off / n
        · rw [hdw, hsame, h _ (Nat.mod_lt _ hn), if_neg]
          intro hmod
          apply hne
          rw [← Nat.div_add_mod off' n, hdw, hmod, Nat.div_add_mod]
        · rw [hwrite, Function.update_self, Function.update_of_ne hdw]
      · rw [hwrite, Function.update_of_ne hfun]

/-- `_pci_write_word` keeps the target and clears the other word. -/
theorem pciWriteWord_space (hf : f.Valid) {woff : ℕ} (h : woff < 128) (p : Pci) (data : BitVec 16) :
    ∃ dw, (pciWriteWord p f.bus f.dev f.func woff data).space =
        Function.update p.space f (Function.update (p.space f) (woff / 2) dw) ∧
      ∀ j < 2, lane 16 dw j = if j = woff % 2 then lane 16 (p.space f (woff / 2)) j ||| data else 0 := by
  obtain ⟨hread, hspace⟩ := pciReadDword_eq hf (show woff / 2 < 64 by omega) p
  refine ⟨_, by rw [pciWriteWord, pciWriteDword_space hf (by omega), hspace], fun j hj => ?_⟩
  have hmask : (0xffff : BitVec 32) <<< (16 * (woff % 2)) = keep 32 16 (woff % 2) := rfl
  rw [hread, hmask, lane_or, lane_and_keep _ (by omega), lane_shiftLeft _ (by omega)]
  split
  · rfl
  · exact BitVec.or_zero

/-- `_pci_write_byte` keeps the target, puts the data into the byte with twice the offset, and
clears the rest. -/
theorem pciWriteByte_space (hf : f.Valid) {boff : ℕ} (h : boff < 256) (p : Pci) (data : BitVec 8) :
    ∃ dw, (pciWriteByte p f.bus f.dev f.func boff data).space =
        Function.update p.space f (Function.update (p.space f) (boff / 4) dw) ∧
      ∀ j < 4, lane 8 dw j = (if j = boff % 4 then lane 8 (p.space f (boff / 4)) j else 0) |||
        if j = 2 * (boff % 4) % 4 then data else 0 := by
  obtain ⟨hread, hspace⟩ := pciReadDword_eq hf (show boff / 4 < 64 by omega) p
  refine ⟨_, by rw [pciWriteByte, pciWriteDword_space hf (by omega), hspace], fun j hj => ?_⟩
  have hmask : (0xff : BitVec 32) <<< (8 * (boff % 4)) = keep 32 8 (boff % 4) := rfl
  have hshift : 16 * (boff % 4) % 32 = 8 * (2 * (boff % 4) % 4) := by omega
  rw [hread, hmask, hshift, lane_or, lane_and_keep _ (by omega), lane_shiftLeft _ (by omega)]

/-- The dwords that a write of a word does not spoil: the other word is 0, and the old word has no
bits but those of the data. -/
def WordWriteFits (p : Pci) (f : PciFunction) (woff : ℕ) (data : BitVec 16) : Prop :=
  (∀ o, o / 2 = woff / 2 → o ≠ woff → p.word f o = 0) ∧ p.word f woff ||| data = data

/-- The byte of the dword into which `_pci_write_byte` puts the data. -/
def shiftedByte (boff : ℕ) : ℕ := boff / 4 * 4 + 2 * (boff % 4) % 4

/-- The dwords that a write of a byte does not spoil: it is the first byte, its old value has no
bits but those of the data, and the other bytes are 0; or the data are already in the target and in
the byte into which they are put, and the other bytes are 0. -/
def ByteWriteFits (p : Pci) (f : PciFunction) (boff : ℕ) (data : BitVec 8) : Prop :=
  (∀ o, o / 4 = boff / 4 → o ≠ boff → o ≠ shiftedByte boff → p.byte f o = 0) ∧
    if boff % 4 = 0 then p.byte f boff ||| data = data
    else p.byte f boff = data ∧ p.byte f (shiftedByte boff) = data

/-- A word write changes its word only exactly when the old dword lets its mask through. -/
theorem pciWriteWord_writesOnly_iff (hf : f.Valid) {woff : ℕ} (h : woff < 128) (p : Pci)
    (data : BitVec 16) :
    WritesOnly Pci.word 128 p (pciWriteWord p f.bus f.dev f.func woff data) f woff data ↔
      WordWriteFits p f woff data := by
  obtain ⟨dw, hwrite, hlanes⟩ := pciWriteWord_space hf h p data
  rw [show 128 = 64 * 2 by rfl,
    writesOnly_iff (by decide) (fun p f off hf hoff => word_eq hf hoff p) hf h hwrite]
  constructor
  · intro hright
    refine ⟨fun o ho hne => ?_, ?_⟩
    · have hzero := hright (o % 2) (Nat.mod_lt _ (by decide))
      rw [hlanes _ (Nat.mod_lt _ (by decide)), if_neg (by omega), if_neg (by omega)] at hzero
      rw [word_eq hf (by omega), ho, ← hzero]
    · have hdata := hright (woff % 2) (Nat.mod_lt _ (by decide))
      rw [hlanes _ (Nat.mod_lt _ (by decide)), if_pos rfl, if_pos rfl] at hdata
      rw [word_eq hf h, hdata]
  · rintro ⟨hzero, hdata⟩ j hj
    rw [hlanes j hj]
    split
    · rename_i hlane
      rw [hlane, ← word_eq hf h, hdata]
    · rename_i hlane
      have hother := hzero (woff / 2 * 2 + j) (by omega) (by omega)
      rw [word_eq hf (by omega), show (woff / 2 * 2 + j) / 2 = woff / 2 by omega,
        show (woff / 2 * 2 + j) % 2 = j by omega] at hother
      exact hother.symm

/-- A byte write changes its byte only exactly when the old dword lets its mask through. -/
theorem pciWriteByte_writesOnly_iff (hf : f.Valid) {boff : ℕ} (h : boff < 256) (p : Pci)
    (data : BitVec 8) :
    WritesOnly Pci.byte 256 p (pciWriteByte p f.bus f.dev f.func boff data) f boff data ↔
      ByteWriteFits p f boff data := by
  obtain ⟨dw, hwrite, hlanes⟩ := pciWriteByte_space hf h p data
  obtain ⟨d, k, hk, rfl⟩ : ∃ d k, k < 4 ∧ boff = 4 * d + k := ⟨boff / 4, boff % 4, by omega, by omega⟩
  have hdiv : ∀ j < 4, (4 * d + j) / 4 = d := fun j hj => by omega
  have hmod : ∀ j < 4, (4 * d + j) % 4 = j := fun j hj => by omega
  have hbyte : ∀ j < 4, p.byte f (4 * d + j) = lane 8 (p.space f d) j := by
    intro j hj
    rw [byte_eq hf (by omega), hdiv j hj, hmod j hj]
  have hshifted : shiftedByte (4 * d + k) = 4 * d + 2 * k % 4 := by
    rw [shiftedByte, hdiv k hk, hmod k hk, mul_comm]
  have htwice : 2 * k % 4 < 4 := Nat.mod_lt _ (by decide)
  rw [hdiv k hk, hmod k hk] at hlanes
  rw [show 256 = 64 * 4 by rfl,
    writesOnly_iff (by decide) (fun p f off hf hoff => byte_eq hf hoff p) hf h hwrite,
    ByteWriteFits, hshifted, hdiv k hk, hmod k hk, hbyte k hk, hbyte _ htwice]
  constructor
  · intro hright
    have hlane : ∀ j < 4, _ := fun j hj => (hlanes j hj).symm.trans (hright j hj)
    refine ⟨fun o ho hne hne' => ?_, ?_⟩
    · obtain ⟨j, hj, rfl⟩ : ∃ j < 4, o = 4 * d + j := ⟨o % 4, by omega, by omega⟩
      have hzero := hlane j hj
      rw [if_neg (by omega), if_neg (by omega), if_neg (by omega)] at hzero
      rw [hbyte j hj, ← hzero]
      exact BitVec.or_zero
    · have htarget := hlane k hk
      have hother := hlane _ htwice
      split
      · rwa [if_pos rfl, if_pos (by omega), if_pos rfl] at htarget
      · rw [if_pos rfl, if_neg (by omega), if_pos rfl] at htarget
        rw [if_neg (by omega), if_pos rfl, if_neg (by omega)] at hother
        exact ⟨BitVec.or_zero.symm.trans htarget, (BitVec.zero_or.symm.trans hother).symm⟩
  · rintro ⟨hzero, hdata⟩ j hj
    rw [hlanes j hj]
    by_cases hjk : j = k
    · subst hjk
      rw [if_pos rfl, if_pos rfl]
      split at hdata
      · rw [if_pos (by omega), hdata]
      · rw [if_neg (by omega), hdata.1]
        exact BitVec.or_zero
    · rw [if_neg hjk, if_neg hjk]
      by_cases hshift : j = 2 * k % 4
      · rw [if_neg (by omega)] at hdata
        rw [if_pos hshift, hshift, hdata.2]
        exact BitVec.zero_or
      · rw [if_neg hshift, ← hbyte j hj, hzero _ (hdiv j hj) (by omega) (by omega)]
        exact BitVec.or_zero

/-- A dword consists of its two words. -/
theorem append_words (x : BitVec 32) : lane 16 x 1 ++ lane 16 x 0 = x := by
  ext i hi
  rw [BitVec.getElem_append]
  split
  · rw [getElem_lane, show 16 * 0 + i = i by omega, BitVec.getLsbD_eq_getElem hi]
  · rw [getElem_lane, show 16 * 1 + (i - 16) = i by omega, BitVec.getLsbD_eq_getElem hi]

/-- A dword consists of its four bytes. -/
theorem append_bytes (x : BitVec 32) : lane 8 x 3 ++ lane 8 x 2 ++ lane 8 x 1 ++ lane 8 x 0 = x := by
  ext i hi
  simp only [BitVec.getElem_append]
  split
  · rw [getElem_lane, show 8 * 0 + i = i by omega, BitVec.getLsbD_eq_getElem hi]
  split
  · rw [getElem_lane, show 8 * 1 + (i - 8) = i by omega, BitVec.getLsbD_eq_getElem hi]
  split
  · rw [getElem_lane, show 8 * 2 + (i - 8 - 8) = i by omega, BitVec.getLsbD_eq_getElem hi]
  · rw [getElem_lane, show 8 * 3 + (i - 8 - 8 - 8) = i by omega, BitVec.getLsbD_eq_getElem hi]

/-- The reads of the three widths agree. -/
theorem pciReadDword_eq_append (hf : f.Valid) (hd : d < 64) (p : Pci) :
    (pciReadDword p f.bus f.dev f.func d).1 = p.word f (2 * d + 1) ++ p.word f (2 * d) ∧
      (pciReadDword p f.bus f.dev f.func d).1 =
        p.byte f (4 * d + 3) ++ p.byte f (4 * d + 2) ++ p.byte f (4 * d + 1) ++ p.byte f (4 * d) := by
  have hword : ∀ j < 2, p.word f (2 * d + j) = lane 16 (p.space f d) j := by
    intro j hj
    rw [word_eq hf (by omega), show (2 * d + j) / 2 = d by omega, show (2 * d + j) % 2 = j by omega]
  have hbyte : ∀ j < 4, p.byte f (4 * d + j) = lane 8 (p.space f d) j := by
    intro j hj
    rw [byte_eq hf (by omega), show (4 * d + j) / 4 = d by omega, show (4 * d + j) % 4 = j by omega]
  rw [(pciReadDword_eq hf hd p).1]
  constructor
  · rw [hword 1 (by decide), show 2 * d = 2 * d + 0 by rfl, hword 0 (by decide), append_words]
  · rw [hbyte 3 (by decide), hbyte 2 (by decide), hbyte 1 (by decide), show 4 * d = 4 * d + 0 by rfl,
      hbyte 0 (by decide), append_bytes]

/-- A write of a word or of a byte changes its target and nothing else if and only if the old dword
fits. The reads of the three widths agree. -/
theorem pci_subword_iff (hf : f.Valid) (p : Pci) :
    (∀ woff < 128, ∀ data, WritesOnly Pci.word 128 p (pciWriteWord p f.bus f.dev f.func woff data) f
      woff data ↔
      WordWriteFits p f woff data) ∧
    (∀ boff < 256, ∀ data, WritesOnly Pci.byte 256 p (pciWriteByte p f.bus f.dev f.func boff data) f
      boff data ↔
      ByteWriteFits p f boff data) ∧
    ∀ d < 64,
      (pciReadDword p f.bus f.dev f.func d).1 = p.word f (2 * d + 1) ++ p.word f (2 * d) ∧
      (pciReadDword p f.bus f.dev f.func d).1 =
        p.byte f (4 * d + 3) ++ p.byte f (4 * d + 2) ++ p.byte f (4 * d + 1) ++ p.byte f (4 * d) :=
  ⟨fun _ h data => pciWriteWord_writesOnly_iff hf h p data,
    fun _ h data => pciWriteByte_writesOnly_iff hf h p data,
    fun _ hd => pciReadDword_eq_append hf hd p⟩

/-- The disk controller that the boot loader looks for: its identifiers, its status word, and no
command bits. -/
def ideController : Pci := ⟨0, fun f d =>
  if f = ⟨0, 1, 1⟩ then (if d = 0 then 0x70108086 else if d = 1 then 0x02800000 else 0) else 0⟩

/-- The characterisation there. -/
theorem pci_subword_iff_ideController : (⟨0, 1, 1⟩ : PciFunction).Valid ∧
    (∀ woff < 128, ∀ data,
      WritesOnly Pci.word 128 ideController (pciWriteWord ideController 0 1 1 woff data)
        ⟨0, 1, 1⟩ woff data ↔
        WordWriteFits ideController ⟨0, 1, 1⟩ woff data) :=
  ⟨by constructor <;> decide,
    (pci_subword_iff (f := ⟨0, 1, 1⟩) (by constructor <;> decide) ideController).1⟩

/-- A write to the command word clears the status word, and a write of the second byte loses its data. -/
theorem not_pci_subword : (⟨0, 1, 1⟩ : PciFunction).Valid ∧
    (¬WritesOnly Pci.word 128 ideController (pciWriteWord ideController 0 1 1 2 5) ⟨0, 1, 1⟩ 2 5 ∧
      (pciWriteWord ideController 0 1 1 2 5).word ⟨0, 1, 1⟩ 3 = 0 ∧
      ideController.word ⟨0, 1, 1⟩ 3 = 0x0280) ∧
    ¬WritesOnly Pci.byte 256 ideController (pciWriteByte ideController 0 1 1 5 1) ⟨0, 1, 1⟩ 5 1 ∧
      (pciWriteByte ideController 0 1 1 5 1).byte ⟨0, 1, 1⟩ 5 = 0 := by
  have hvalid : (⟨0, 1, 1⟩ : PciFunction).Valid := by constructor <;> decide
  have hstatus : (pciWriteWord ideController 0 1 1 2 5).word ⟨0, 1, 1⟩ 3 = 0 := by decide +kernel
  have hbefore : ideController.word ⟨0, 1, 1⟩ 3 = 0x0280 := by decide +kernel
  have hbyte : (pciWriteByte ideController 0 1 1 5 1).byte ⟨0, 1, 1⟩ 5 = 0 := by decide +kernel
  refine ⟨hvalid, ⟨fun h => ?_, hstatus, hbefore⟩, fun h => ?_, hbyte⟩
  · have hsame := h.2 ⟨0, 1, 1⟩ 3 hvalid (by decide) (by decide)
    rw [hstatus, hbefore] at hsame
    exact absurd hsame (by decide)
  · rw [WritesOnly, hbyte] at h
    exact absurd h.1 (by decide)

end Hobby386
