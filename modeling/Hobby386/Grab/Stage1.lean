import Hobby386.Fs.Chunks
import Hobby386.Lib.Segments

/-!
# The first stage

The boot sector copies itself out of the way, lets the BIOS read the second stage and list the
memory, moves the second stage to address 0, loads a table of segments with base 0 and calls the
second stage with what the BIOS has said. At every call the BIOS may write to memory of its own:
when it sets the mode of the screen, it clears it. The stack below the arguments is not modelled.
-/

namespace Hobby386

open LittleEndian Segments

namespace Stage1

/-! ## The boot sector -/

/-- `.word` -/
def word (v : ℕ) : List UInt8 := [byte v 0, byte v 1]

/-- `.long` -/
def long (v : ℕ) : List UInt8 := [byte v 0, byte v 1, byte v 2, byte v 3]

/-- `GDTE` -/
def gdte (lim base exe : ℕ) : List UInt8 :=
  word (lim &&& 0xffff) ++ word (base &&& 0xffff) ++
    [.ofNat ((base >>> 16) &&& 0xff), .ofNat (0b10010010 ||| (exe <<< 3)),
      .ofNat (((lim >>> 16) &&& 0xf) ||| (0b1100 <<< 4)), .ofNat ((base >>> 24) &&& 0xff)]

/-- A segment of the whole address space. -/
def wide (base : ℕ) (exe : Bool) : Segment := ⟨.ofNat 32 base, 0xfffff, if exe then 0x9a else 0x92, 0xc⟩

/-- The entry of the macro is the descriptor of the segment. -/
theorem gdte_eq (base : ℕ) (exe : Bool) : gdte 0xfffff base exe.toNat = (wide base exe).bytes := by
  have hlow : base &&& 0xffff = base % 2 ^ 16 := Nat.and_two_pow_sub_one_eq_mod base 16
  have hmid : (base >>> 16) &&& 0xff = base / 2 ^ 16 % 2 ^ 8 := by
    rw [Nat.shiftRight_eq_div_pow]
    exact Nat.and_two_pow_sub_one_eq_mod _ 8
  have hhigh : (base >>> 24) &&& 0xff = base / 2 ^ 24 % 2 ^ 8 := by
    rw [Nat.shiftRight_eq_div_pow]
    exact Nat.and_two_pow_sub_one_eq_mod _ 8
  have hexe : (.ofNat (0b10010010 ||| (exe.toNat <<< 3)) : UInt8) =
      .ofNat (wide base exe).access.toNat := by
    cases exe <;> rfl
  rw [gdte, hlow, hmid, hhigh, hexe]
  simp only [Segment.bytes, wide, word, BitVec.toNat_ofNat, List.cons_append, List.nil_append,
    List.cons.injEq, and_true, true_and]
  refine ⟨rfl, rfl, ?_, ?_, ?_, rfl, ?_⟩ <;> apply UInt8.toNat_inj.mp <;> simp only [byte,
    UInt8.toNat_ofNat'] <;> omega

end Stage1

/-- The assembled first stage. The instructions end at `boot_drive`, and `back` is the offset of the
one behind the call of the second stage. -/
structure Stage1 where
  code : List UInt8
  back : ℕ
  /-- The data lie before the partition table. -/
  fits : code.length + 46 ≤ 446

namespace Stage1

variable (s : Stage1)

/-- The offset of `boot_drive`, behind the code. -/
def bootDrive : ℕ := s.code.length

/-- The offset of `smap_len`. -/
def smapLen : ℕ := s.bootDrive + 4

/-- The offset of `smap_ptr`. -/
def smapPtr : ℕ := s.bootDrive + 8

/-- The offset of `pci_access_mode`. -/
def pciAccessMode : ℕ := s.bootDrive + 12

/-- The offset of `gdt`. -/
def gdt : ℕ := s.bootDrive + 16

/-- The offset of `gdt_ptr`. -/
def gdtPtr : ℕ := s.bootDrive + 40

/-- From `boot_drive` to `disk_err_msg`. -/
def data : List UInt8 :=
  long 0 ++ long 0 ++ long 0 ++ long 0 ++
    (word 0 ++ word 0 ++ word 0 ++ word 0 ++ gdte 0xfffff 0 1 ++ gdte 0xfffff 0 0) ++
    (word (s.gdtPtr - s.gdt - 1) ++ long (s.gdt + 0x90000))

/-- `stage1.bin`. -/
def bin : List UInt8 :=
  let used := s.code ++ s.data ++ [100, 105, 115, 107, 32, 101, 114, 114, 111, 114, 0]
  used ++ List.replicate (510 - used.length) 0 ++ [0x55, 0xaa]

/-! ## The processor and the BIOS -/

/-- Why the first stage does not come to the second. -/
inductive Halt
  | die
  | fault
  | running
  deriving DecidableEq, Repr

/-- Storing the low `w` bytes of a number. -/
def store (w p v : ℕ) (mem : Memory) : Memory := memcpy mem p (byte v) 0 w

/-- `rep movsw` in segments with these bases. -/
def repMovsw (ds es : ℕ) : (cx : ℕ) → (si di : UInt16) → Memory → Memory
  | 0, _, _, mem => mem
  | cx + 1, si, di, mem => repMovsw ds es cx (si + 2) (di + 2)
    (memcpy mem (es + di.toNat) mem (ds + si.toNat) 2)

/-- The registers after a call of the memory map, and the bytes at the buffer. -/
structure SmapAnswer where
  eax : UInt32
  edx : UInt32
  ebx : UInt32
  bytes : List UInt8

/-- The memory of the BIOS: the interrupt vectors and its variables, and between the first stage and
1M the stack that it is called on, its further data, the screen and its code. -/
def BiosOwns (p : ℕ) : Prop := p < 0x500 ∨ 0x90200 ≤ p ∧ p < 0x100000

/-- What the first stage asks for: the keyboard controller's status at each reading, the contents of
sectors, the part of the memory map for a continuation number, and the access mode of the PCI bus.
-/
structure Bios where
  status : ℕ → UInt8
  sectors : (dl ch dh cl al : UInt8) → Option Memory
  smap : UInt32 → SmapAnswer
  pci : UInt16
  /-- The memory when an interrupt is called for the `n`-th time, as the BIOS leaves it. -/
  int : (vector : UInt8) → (n : ℕ) → Memory → Memory
  /-- Apart from its answers it writes to its own memory only. -/
  int_eq : ∀ vector n mem p, ¬BiosOwns p → int vector n mem p = mem p

/-- `ibf8042` at a status of the keyboard controller. -/
def ibf8042 (status : UInt8) : Except Halt Unit := if status &&& 2 ≠ 0 then .error .die else .ok ()

/-- `smap_loop` with the counter at `len`, behind `n` turns of it. -/
def smapLoop (bios : Bios) (len : ℕ) :
    (fuel n : ℕ) → (ebx : UInt32) → (di : UInt16) → Memory → Except Halt Memory
  | 0, _, _, _, _ => .error .running
  | fuel + 1, n, ebx, di, mem =>
    let a := bios.smap ebx
    let mem := bios.int 0x15 n mem
    let mem := memcpy mem (0x80000 + di.toNat) (.ofList a.bytes) 0 a.bytes.length
    if a.eax ≠ a.edx then .error .die
    -- the carry of the comparison, no longer that of the BIOS
    else if a.eax < a.edx then .error .die
    else
      let mem := store 4 len (value mem 4 len + 1) mem
      if a.ebx ≠ 0 then smapLoop bios len fuel (n + 1) a.ebx (di + 24) mem else .ok mem

/-- The processor at the entry of the second stage. `%ss` is `%ds`. -/
structure Entered where
  cs : Segment
  ds : Segment
  eip : ℕ
  esp : ℕ
  mem : Memory

/-- The arguments of a function that has just been called. -/
def Entered.arg (e : Entered) (i : ℕ) : ℕ := value e.mem 4 (e.ds.linear (e.esp + 4 * (i + 1)))

/-- `pushl` -/
def Entered.push (v : ℕ) (e : Entered) : Entered :=
  { e with esp := e.esp - 4, mem := store 4 (e.ds.linear (e.esp - 4)) v e.mem }

/-- `pushl` of what is in memory. -/
def Entered.pushAt (p : ℕ) (e : Entered) : Entered := e.push (value e.mem 4 (e.ds.linear p))

/-- From `to32` on. -/
def to32 (mem : Memory) : Except Halt Entered :=
  let gdtr := Gdtr.load mem 3 (0x90000 + s.gdtPtr)
  match gdtr.segment mem 8, gdtr.segment mem 16 with
  | some cs, some ds =>
    if cs.IsCode ∧ ds.IsWritable then
      let e : Entered := ⟨cs, ds, 0, 0xfc00 + 0x90000, mem⟩
      let e := e.pushAt (0x90000 + s.smapLen)
      let e := e.pushAt (0x90000 + s.smapPtr)
      let e := e.pushAt (0x90000 + s.pciAccessMode)
      .ok (e.push (0x90000 + s.back))
    else .error .fault
  | _, _ => .error .fault

/-- `_start`, entered at 0x7c00 with the drive in `%dx`. -/
def start (bios : Bios) (fuel : ℕ) (dx : UInt16) (mem : Memory) : Except Halt Entered := do
  let mem := repMovsw 0x7c00 0x90000 256 0 0 mem
  let mem := bios.int 0x10 0 mem
  let mem := store 2 (0x90000 + s.bootDrive) dx.toNat mem
  ibf8042 (bios.status 0)
  ibf8042 (bios.status 1)
  ibf8042 (bios.status 2)
  let dl : UInt8 := .ofNat (value mem 2 (0x90000 + s.bootDrive))
  match bios.sectors dl 0 0 2 62 with
  | none => .error .die
  | some sectors =>
    let mem := memcpy (bios.int 0x13 0 mem) 0x10000 sectors 0 (62 * 512)
    match bios.sectors dl 0 1 1 1 with
    | none => .error .die
    | some sector =>
      let mem := memcpy (bios.int 0x13 1 mem) (0x10000 + 0x7c00) sector 0 512
      let mem ← smapLoop bios (0x90000 + s.smapLen) fuel 0 0 0 mem
      let mem := store 4 (0x90000 + s.smapPtr) 0x80000 mem
      let mem := bios.int 0x1a 0 mem
      let mem := store 2 (0x90000 + s.pciAccessMode) bios.pci.toNat mem
      s.to32 (repMovsw 0x10000 0 (63 * 256) 0 0 mem)

/-! ## Memory -/

section Memory

variable {mem src : Memory} {p q n w o v i : ℕ}

/-- Inside the target of a copy. -/
theorem memcpy_in (h : p ≤ i ∧ i < p + n) : memcpy mem p src q n i = src (q + (i - p)) := if_pos h

/-- Outside the target of a copy. -/
theorem memcpy_out (h : i < p ∨ p + n ≤ i) : memcpy mem p src q n i = mem i := if_neg (by omega)

/-- A stored word reads back, cut to its width. -/
theorem value_store (w p v : ℕ) (mem : Memory) : value (store w p v mem) w p = v % 256 ^ w :=
  value_of_byte fun i hi => by rw [store, memcpy_in (by omega), Nat.add_sub_cancel_left, Nat.zero_add]

/-- Outside a stored word. -/
theorem store_out (h : i < p ∨ p + w ≤ i) : store w p v mem i = mem i := memcpy_out h

/-- A word that does not meet the stored one. -/
theorem value_store_out (h : o + n ≤ p ∨ p + w ≤ o) : value (store w p v mem) n o = value mem n o :=
  value_congr fun i hi => store_out (by omega)

/-- The two halves of a number. -/
theorem value_four (mem : Memory) (p : ℕ) :
    value mem 4 p = value mem 2 p + 65536 * value mem 2 (p + 2) := by
  simp only [value, Nat.add_assoc, Nat.reduceAdd]
  omega

/-- The words that are copied one by one, to an area that does not overlap theirs. -/
theorem repMovsw_eq {ds es cx : ℕ} {si di : UInt16} (hsi : si.toNat + 2 * cx < 65536)
    (hdi : di.toNat + 2 * cx < 65536)
    (h : es + di.toNat + 2 * cx ≤ ds + si.toNat ∨ ds + si.toNat + 2 * cx ≤ es + di.toNat)
    (mem : Memory) :
    repMovsw ds es cx si di mem = memcpy mem (es + di.toNat) mem (ds + si.toNat) (2 * cx) := by
  induction cx generalizing si di mem with
  | zero =>
    funext i
    rw [repMovsw, memcpy_out (by omega)]
  | succ cx ih =>
    have hstep (x : UInt16) (hx : x.toNat + 2 < 65536) : (x + 2).toNat = x.toNat + 2 :=
      (UInt16.toNat_add x 2).trans (Nat.mod_eq_of_lt hx)
    have hsi' := hstep si (by omega)
    have hdi' := hstep di (by omega)
    funext i
    rw [repMovsw, ih (by omega) (by omega) (by omega), hsi', hdi']
    simp only [memcpy]
    -- the words behind the first one, the first one, and the rest of the memory
    by_cases hrest : es + (di.toNat + 2) ≤ i ∧ i < es + (di.toNat + 2) + 2 * cx
    · rw [if_pos hrest, if_neg (by omega), if_pos (by omega)]
      congr 1
      omega
    · rw [if_neg hrest]
      by_cases hfirst : es + di.toNat ≤ i ∧ i < es + di.toNat + 2
      · rw [if_pos hfirst, if_pos (by omega)]
      · rw [if_neg hfirst, if_neg (by omega)]

end Memory

/-! ## The memory map -/

/-- The BIOS lists these descriptors, from a continuation number on. -/
inductive Bios.Lists (bios : Bios) : UInt32 → List (List UInt8) → Prop
  | last {ebx : UInt32} (signed : (bios.smap ebx).eax = (bios.smap ebx).edx)
      (done : (bios.smap ebx).ebx = 0) : Lists bios ebx [(bios.smap ebx).bytes]
  | more {ebx : UInt32} {l : List (List UInt8)} (signed : (bios.smap ebx).eax = (bios.smap ebx).edx)
      (next : (bios.smap ebx).ebx ≠ 0) (rest : Lists bios (bios.smap ebx).ebx l) :
      Lists bios ebx ((bios.smap ebx).bytes :: l)

/-- No descriptor is longer than the buffer. -/
theorem Bios.Lists.length_le {bios : Bios} {ebx : UInt32} {l : List (List UInt8)} (h : bios.Lists ebx l)
    (hbuffer : ∀ c, (bios.smap c).bytes.length ≤ 24) : ∀ bytes ∈ l, bytes.length ≤ 24 := by
  induction h with
  | @last ebx =>
    intro bytes hbytes
    rw [List.mem_singleton.mp hbytes]
    exact hbuffer ebx
  | @more ebx l signed next rest ih =>
    intro bytes hbytes
    rcases List.mem_cons.mp hbytes with rfl | hrest
    · exact hbuffer ebx
    · exact ih bytes hrest

variable {bios : Bios} {ebx : UInt32} {di : UInt16} {l : List (List UInt8)} {len k n fuel : ℕ}
  {mem mem' : Memory}

/-- A step of the loop with a signature. -/
theorem smapLoop_signed (hsigned : (bios.smap ebx).eax = (bios.smap ebx).edx) :
    smapLoop bios len (fuel + 1) n ebx di mem =
      let a := bios.smap ebx
      let mem := memcpy (bios.int 0x15 n mem) (0x80000 + di.toNat) (.ofList a.bytes) 0 a.bytes.length
      let mem := store 4 len (value mem 4 len + 1) mem
      if a.ebx ≠ 0 then smapLoop bios len fuel (n + 1) a.ebx (di + 24) mem else .ok mem := by
  rw [smapLoop]
  dsimp only
  rw [if_neg (not_not_intro hsigned), if_neg (by rw [hsigned]; exact Nat.lt_irrefl _)]

/-- The loop ends only with a list. -/
theorem lists_of_smapLoop (h : smapLoop bios len fuel n ebx di mem = .ok mem') :
    ∃ l, bios.Lists ebx l := by
  induction fuel generalizing n ebx di mem with
  | zero => cases h
  | succ fuel ih =>
    by_cases hsigned : (bios.smap ebx).eax = (bios.smap ebx).edx
    · rw [smapLoop_signed hsigned] at h
      dsimp only at h
      split at h
      · rename_i hnext
        obtain ⟨l, hl⟩ := ih h
        exact ⟨_, .more hsigned hnext hl⟩
      · rename_i hdone
        exact ⟨_, .last hsigned (not_not.mp hdone)⟩
    · rw [smapLoop] at h
      dsimp only at h
      rw [if_pos hsigned] at h
      cases h

/-- Where the BIOS does not write. -/
theorem Bios.int_out (bios : Bios) (vector : UInt8) (n : ℕ) (mem : Memory) {p : ℕ}
    (h : 0x500 ≤ p ∧ (p < 0x90200 ∨ 0x100000 ≤ p)) : bios.int vector n mem p = mem p :=
  bios.int_eq vector n mem p (by rw [BiosOwns]; omega)

/-- The memory map after `k` entries and then those of the list. -/
structure Mapped (len k : ℕ) (l : List (List UInt8)) (mem mem' : Memory) : Prop where
  count : value mem' 4 len = k + l.length
  entries : ∀ (i : ℕ) (hi : i < l.length) (j : ℕ) (hj : j < l[i].length),
    mem' (0x80000 + 24 * (k + i) + j) = l[i][j]
  frame : ∀ p, ¬BiosOwns p → p < 0x80000 + 24 * k ∨ 0x90000 ≤ p → p < len ∨ len + 4 ≤ p → mem' p = mem p

variable (bios) in
/-- One more entry. -/
theorem mapped_entry {bytes : List UInt8} (n : ℕ) (hlen : 0x90000 ≤ len ∧ len + 4 ≤ 0x90200)
    (hk : k < 2730) (hbytes : bytes.length ≤ 24) (hcount : value mem 4 len = k) :
    Mapped len k [bytes] mem (store 4 len
      (value (memcpy (bios.int 0x15 n mem) (0x80000 + 24 * k) (.ofList bytes) 0 bytes.length) 4 len + 1)
      (memcpy (bios.int 0x15 n mem) (0x80000 + 24 * k) (.ofList bytes) 0 bytes.length)) where
  count := by
    have hkeep : value (memcpy (bios.int 0x15 n mem) (0x80000 + 24 * k)
        (.ofList bytes) 0 bytes.length) 4 len =
        value mem 4 len :=
      value_congr fun i hi => by rw [memcpy_out (by omega), bios.int_out _ _ _ (by omega)]
    rw [value_store, hkeep, hcount]
    exact Nat.mod_eq_of_lt (by omega)
  entries i hi j hj := by
    obtain rfl : i = 0 := Nat.lt_one_iff.mp hi
    rw [List.getElem_cons_zero] at hj
    rw [store_out (by omega), memcpy_in (by omega)]
    simp only [Memory.ofList, List.getElem_cons_zero]
    rw [show 0 + (0x80000 + 24 * (k + 0) + j - (0x80000 + 24 * k)) = j by omega,
      List.getD_eq_getElem _ _ hj]
  frame p howns hp hout := by rw [store_out hout, memcpy_out (by omega), bios.int_eq _ _ _ _ howns]

/-- One entry and then the rest of the list. -/
theorem Mapped.cons {bytes : List UInt8} {mem₁ : Memory} (h : Mapped len k [bytes] mem mem₁)
    (h' : Mapped len (k + 1) l mem₁ mem') (hk : k < 2730) (hlen : 0x90000 ≤ len)
    (hbytes : bytes.length ≤ 24) :
    Mapped len k (bytes :: l) mem mem' where
  count := by
    rw [h'.count, List.length_cons]
    omega
  entries i hi j hj := by
    cases i with
    | zero =>
      rw [List.getElem_cons_zero] at hj
      rw [h'.frame _ (by rw [BiosOwns]; omega) (by omega) (by omega)]
      exact h.entries 0 Nat.one_pos j hj
    | succ i =>
      have hentry := h'.entries i (Nat.lt_of_succ_lt_succ hi) j hj
      rwa [show k + 1 + i = k + (i + 1) by omega] at hentry
  frame p howns hp hout := by
    rw [h'.frame p howns (by omega) hout, h.frame p howns hp hout]

/-- The loop stores the list of the BIOS and its length. -/
theorem smapLoop_eq (h : bios.Lists ebx l) (hbuffer : ∀ c, (bios.smap c).bytes.length ≤ 24)
    (hlen : 0x90000 ≤ len ∧ len + 4 ≤ 0x90200) (hdi : di.toNat = 24 * k) (hroom : k + l.length ≤ 2730)
    (hcount : value mem 4 len = k) :
    ∃ mem', Mapped len k l mem mem' ∧ ∀ fuel ≥ l.length, smapLoop bios len fuel n ebx di mem =
      .ok mem' := by
  induction h generalizing di k n mem with
  | @last ebx signed done =>
    have hentry := mapped_entry bios n hlen (Nat.lt_of_succ_le hroom) (hbuffer ebx) hcount
    refine ⟨_, hentry, fun fuel hfuel => ?_⟩
    obtain ⟨fuel, rfl⟩ := Nat.exists_eq_add_of_le' hfuel
    rw [List.length_singleton, smapLoop_signed signed]
    dsimp only
    rw [if_neg (not_not_intro done), hdi]
  | @more ebx l signed next rest ih =>
    rw [List.length_cons] at hroom
    have hentry := mapped_entry bios n hlen (by omega) (hbuffer ebx) hcount
    have hdi' : (di + 24).toNat = 24 * (k + 1) := by
      refine (UInt16.toNat_add _ _).trans ?_
      rw [hdi]
      exact Nat.mod_eq_of_lt (show 24 * k + 24 < 2 ^ 16 by omega)
    obtain ⟨mem', hmapped, hloop⟩ := ih (n := n + 1) hdi' (by omega) hentry.count
    refine ⟨mem', hentry.cons hmapped (by omega) hlen.1 (hbuffer ebx), fun fuel hfuel => ?_⟩
    rw [List.length_cons] at hfuel
    obtain ⟨fuel, rfl⟩ := Nat.exists_eq_add_of_le' (Nat.le_of_add_left_le hfuel)
    rw [smapLoop_signed signed]
    dsimp only
    rw [if_pos next, hdi]
    exact hloop fuel (by omega)

/-! ## The data of the first stage -/

/-- The segments, as the assembler lays them out, and the register that leads to them. -/
structure Table (mem : Memory) : Prop where
  segments : ∀ exe, ∀ i < 8, mem (0x90000 + s.gdt + (if exe then 8 else 16) + i) =
    (wide 0 exe).bytes.getD i 0
  limit : value mem 2 (0x90000 + s.gdtPtr) = 23
  base : value mem 3 (0x90000 + s.gdtPtr + 2) = 0x90000 + s.gdt

/-- The data behind the drive number lie in memory as in the boot sector. -/
def LoadedAt (p : ℕ) (mem : Memory) : Prop :=
  ∀ i, 2 ≤ i → i < 46 → mem (p + (s.bootDrive + i)) = s.data.getD i 0

/-- The two segments of the descriptor table, in the bytes of the image. -/
theorem data_gdt (exe : Bool) {i : ℕ} (hi : i < 8) :
    s.data.getD (16 + (if exe then 8 else 16) + i) 0 = (wide 0 exe).bytes.getD i 0 := by
  rw [← gdte_eq]
  interval_cases i <;> cases exe <;> rfl

/-- The limit of the pseudo-descriptor, in the bytes of the image. -/
theorem data_limit {i : ℕ} (hi : i < 2) : s.data.getD (40 + i) 0 = byte 23 i := by
  have hlimit : s.gdtPtr - s.gdt - 1 = 23 := by
    simp only [gdtPtr, gdt]
    omega
  rw [← hlimit]
  interval_cases i <;> rfl

/-- The base of the pseudo-descriptor, in the bytes of the image. -/
theorem data_base {i : ℕ} (hi : i < 3) : s.data.getD (42 + i) 0 = byte (s.gdt + 0x90000) i := by
  interval_cases i <;> rfl

/-- The variables in front of the table are zero in the image. -/
theorem data_zero {i : ℕ} (hi : i < 16) : s.data.getD i 0 = 0 := by
  interval_cases i <;> rfl

variable {s} {e : Entered} {ptr mode p : ℕ}

/-- The loaded image holds the descriptor table. -/
theorem LoadedAt.table (h : s.LoadedAt 0x90000 mem) : s.Table mem where
  segments exe i hi := by
    rw [← s.data_gdt exe hi, ← h _ (by split <;> omega) (by split <;> omega), gdt]
    congr 1
    omega
  limit := by
    have hvalue : value mem 2 (0x90000 + s.gdtPtr) = 23 % 256 ^ 2 := by
      refine value_of_byte fun i hi => ?_
      rw [← s.data_limit hi, ← h _ (by omega) (by omega), gdtPtr]
      congr 1
      omega
    exact hvalue
  base := by
    have hfits := s.fits
    have hvalue : value mem 3 (0x90000 + s.gdtPtr + 2) = (s.gdt + 0x90000) % 256 ^ 3 := by
      refine value_of_byte fun i hi => ?_
      rw [← s.data_base hi, ← h _ (by omega) (by omega), gdtPtr]
      congr 1
      omega
    rw [hvalue, Nat.mod_eq_of_lt (by simp only [gdt, bootDrive]; omega), Nat.add_comm]

/-- The numbers are zero at first. -/
theorem LoadedAt.zero (h : s.LoadedAt 0x90000 mem) {w o : ℕ} (hlow : 2 ≤ o) (ho : o + w ≤ 16) :
    value mem w (0x90000 + (s.bootDrive + o)) = 0 := by
  have hvalue : value mem w (0x90000 + (s.bootDrive + o)) = 0 % 256 ^ w := by
    refine value_of_byte fun i hi => ?_
    rw [show 0x90000 + (s.bootDrive + o) + i = 0x90000 + (s.bootDrive + (o + i)) by omega,
      h _ (by omega) (by omega), s.data_zero (by omega), byte, Nat.zero_div]
    rfl
  rw [hvalue, Nat.zero_mod]

/-- The table depends on the memory behind the numbers only. -/
theorem Table.congr (h : s.Table mem)
    (hsame : ∀ i < 30, mem' (0x90000 + s.gdt + i) = mem (0x90000 + s.gdt + i)) :
    s.Table mem' where
  segments exe i hi := by
    rw [← h.segments exe i hi, Nat.add_assoc, hsame _ (by split <;> omega)]
  limit := by
    rw [← h.limit]
    refine value_congr fun i hi => ?_
    have hbyte := hsame (24 + i) (by omega)
    have haddr : 0x90000 + s.gdt + (24 + i) = 0x90000 + s.gdtPtr + i := by
      simp only [gdtPtr, gdt]
      omega
    rwa [haddr] at hbyte
  base := by
    rw [← h.base]
    refine value_congr fun i hi => ?_
    have hbyte := hsame (26 + i) (by omega)
    have haddr : 0x90000 + s.gdt + (26 + i) = 0x90000 + s.gdtPtr + 2 + i := by
      simp only [gdtPtr, gdt]
      omega
    rwa [haddr] at hbyte

/-! ## The protected mode -/

/-- In a flat segment a 32-bit offset is the linear address. -/
theorem linear_wide (exe : Bool) {off : ℕ} (h : off < 2 ^ 32) : (wide 0 exe).linear off = off := by
  have hbase : ((wide 0 exe).base.toNat + 0) % 2 ^ 32 = 0 := rfl
  have hlinear := Segment.linear_of_base hbase (i := off) (by omega)
  rwa [Nat.zero_add] at hlinear

/-- A push onto a flat stack. -/
theorem push_wide (cs : Segment) {eip esp v : ℕ} (hesp : esp < 2 ^ 32) :
    Entered.push v ⟨cs, wide 0 false, eip, esp, mem⟩ =
      ⟨cs, wide 0 false, eip, esp - 4, store 4 (esp - 4) v mem⟩ := by
  have hesp' : esp - 4 < 2 ^ 32 := by omega
  rw [Entered.push, linear_wide _ hesp']

/-- A push of a word in memory onto a flat stack. -/
theorem pushAt_wide (cs : Segment) {eip esp p : ℕ} (hesp : esp < 2 ^ 32) (hp : p < 2 ^ 32) :
    Entered.pushAt p ⟨cs, wide 0 false, eip, esp, mem⟩ =
      ⟨cs, wide 0 false, eip, esp - 4, store 4 (esp - 4) (value mem 4 p) mem⟩ := by
  rw [Entered.pushAt, push_wide cs hesp, linear_wide _ hp]

/-- The selectors of the table load the flat segments. -/
theorem Table.segment (h : s.Table mem) (exe : Bool) :
    (Gdtr.load mem 3 (0x90000 + s.gdtPtr)).segment mem (if exe then 8 else 16) = some (wide 0 exe) := by
  rw [Gdtr.load, h.limit, h.base]
  refine Gdtr.segment_eq ?_ ?_ (h.segments exe)
  · dsimp only
    split <;> omega
  · cases exe <;> decide

/-- In the protected mode the second stage gets the numbers as its arguments, and the memory stays
as it is. -/
theorem Table.to32 (h : s.Table mem) : ∃ e, s.to32 mem = .ok e ∧ e.cs = wide 0 true ∧
    e.ds = wide 0 false ∧ e.eip = 0 ∧
    e.arg 0 = value mem 4 (0x90000 + s.pciAccessMode) ∧ e.arg 1 = value mem 4 (0x90000 + s.smapPtr) ∧
    e.arg 2 = value mem 4 (0x90000 + s.smapLen) ∧ ∀ p, p < 0x9fbf0 ∨ 0x9fc00 ≤ p → e.mem p = mem p := by
  have hfits := s.fits
  have hlen : s.smapLen + 4 ≤ 446 := by simp only [smapLen, bootDrive]; omega
  have hptr : s.smapPtr + 4 ≤ 446 := by simp only [smapPtr, bootDrive]; omega
  have hmode : s.pciAccessMode + 4 ≤ 446 := by simp only [pciAccessMode, bootDrive]; omega
  have hcode := h.segment true
  have hdata := h.segment false
  rw [if_pos rfl] at hcode
  rw [if_neg Bool.false_ne_true] at hdata
  have hrights : (wide 0 true).IsCode ∧ (wide 0 false).IsWritable := by decide
  rw [Stage1.to32, hcode, hdata]
  dsimp only
  rw [if_pos hrights, pushAt_wide _ (by decide) (by omega), pushAt_wide _ (by decide) (by omega),
    pushAt_wide _ (by decide) (by omega), push_wide _ (by decide)]
  -- the arguments are read where they have been pushed
  rw [value_store_out (by omega), value_store_out (by omega), value_store_out (by omega)]
  have harg (i : ℕ) (hi : i < 3) : (wide 0 false).linear (0x9fbf0 + 4 * (i + 1)) =
      0x9fbf0 + 4 * (i + 1) :=
    linear_wide _ (by omega)
  refine ⟨_, rfl, rfl, rfl, rfl, ?_, ?_, ?_, fun p hp => ?_⟩
  · rw [Entered.arg, harg 0 (by decide), value_store_out (by omega), value_store]
    exact Nat.mod_eq_of_lt (value_lt _ _ _)
  · rw [Entered.arg, harg 1 (by decide), value_store_out (by omega), value_store_out (by omega),
      value_store]
    exact Nat.mod_eq_of_lt (value_lt _ _ _)
  · rw [Entered.arg, harg 2 (by decide), value_store_out (by omega), value_store_out (by omega),
      value_store_out (by omega), value_store]
    exact Nat.mod_eq_of_lt (value_lt _ _ _)
  · dsimp only
    rw [store_out (by omega), store_out (by omega), store_out (by omega), store_out (by omega)]

/-! ## The whole stage -/

/-- The keyboard controller is ready, the BIOS reads the sectors from a drive, and it has a memory
map. -/
structure Bios.Answers (bios : Bios) (dl : UInt8) (sectors sector : Memory)
    (l : List (List UInt8)) : Prop where
  ready : ∀ i < 3, bios.status i &&& 2 = 0
  sectors : bios.sectors dl 0 0 2 62 = some sectors
  sector : bios.sectors dl 0 1 1 1 = some sector
  map : bios.Lists 0 l

/-- The wait for the keyboard controller ends when its input buffer is empty. -/
theorem ibf8042_ready {status : UInt8} : ibf8042 status = .ok () ↔ status &&& 2 = 0 := by
  rw [ibf8042]
  split
  · rename_i h
    exact iff_of_false (fun h' => by cases h') h
  · rename_i h
    exact iff_of_true rfl (not_not.mp h)

/-- The memory when the BIOS has read the second stage. -/
def readIn (s : Stage1) (bios : Bios) (dx : UInt16) (sectors sector mem : Memory) : Memory :=
  let mem := store 2 (0x90000 + s.bootDrive) dx.toNat
    (bios.int 0x10 0 (repMovsw 0x7c00 0x90000 256 0 0 mem))
  let mem := memcpy (bios.int 0x13 0 mem) 0x10000 sectors 0 (62 * 512)
  memcpy (bios.int 0x13 1 mem) (0x10000 + 0x7c00) sector 0 512

/-- The first stage behind the answers of the BIOS. -/
theorem start_eq {dx : UInt16} : s.start bios fuel dx mem = (do
    ibf8042 (bios.status 0)
    ibf8042 (bios.status 1)
    ibf8042 (bios.status 2)
    match bios.sectors dx.toUInt8 0 0 2 62 with
    | none => .error .die
    | some sectors =>
      match bios.sectors dx.toUInt8 0 1 1 1 with
      | none => .error .die
      | some sector =>
        let mem ← smapLoop bios (0x90000 + s.smapLen) fuel 0 0 0 (s.readIn bios dx sectors sector mem)
        s.to32 (repMovsw 0x10000 0 (63 * 256) 0 0 (store 2 (0x90000 + s.pciAccessMode) bios.pci.toNat
          (bios.int 0x1a 0 (store 4 (0x90000 + s.smapPtr) 0x80000 mem))))) := by
  have hdl : (.ofNat (dx.toNat % 256 ^ 2) : UInt8) = dx.toUInt8 := by
    have hlt : dx.toNat < 256 ^ 2 := dx.toNat_lt
    rw [Nat.mod_eq_of_lt hlt]
    rfl
  rw [start]
  dsimp only
  rw [value_store, hdl]
  rfl

/-- The first stage comes to the second only with these answers. -/
theorem answers_of_start {dx : UInt16} (h : s.start bios fuel dx mem = .ok e) :
    ∃ sectors sector l, bios.Answers dx.toUInt8 sectors sector l := by
  rw [start_eq] at h
  simp only [bind_eq_ok] at h
  obtain ⟨_, h₀, _, h₁, _, h₂, h⟩ := h
  split at h
  · cases h
  · rename_i sectors hsectors
    split at h
    · cases h
    · rename_i sector hsector
      obtain ⟨mem', hloop, -⟩ := bind_eq_ok.mp h
      obtain ⟨l, hl⟩ := lists_of_smapLoop hloop
      refine ⟨sectors, sector, l, ⟨fun i hi => ?_, hsectors, hsector, hl⟩⟩
      interval_cases i
      · exact ibf8042_ready.mp h₀
      · exact ibf8042_ready.mp h₁
      · exact ibf8042_ready.mp h₂

/-- The data of the first stage, the second stage and the memory above 1M when it has been read. -/
theorem readIn_spec (hloaded : s.LoadedAt 0x7c00 mem) (bios : Bios) (dx : UInt16)
    (sectors sector : Memory) :
    s.LoadedAt 0x90000 (s.readIn bios dx sectors sector mem) ∧
      (∀ i < 62 * 512, s.readIn bios dx sectors sector mem (0x10000 + i) = sectors i) ∧
      (∀ i < 512, s.readIn bios dx sectors sector mem (0x10000 + 62 * 512 + i) = sector i) ∧
      ∀ p ≥ 0x100000, s.readIn bios dx sectors sector mem p = mem p := by
  have hfits := s.fits
  have hcode : s.bootDrive = s.code.length := rfl
  have hmove : repMovsw 0x7c00 0x90000 256 0 0 mem = memcpy mem 0x90000 mem 0x7c00 512 :=
    repMovsw_eq (by decide) (by decide) (.inr (by decide)) mem
  rw [readIn, hmove]
  refine ⟨fun i hlow hi => ?_, fun i hi => ?_, fun i hi => ?_, fun p hp => ?_⟩
  · rw [memcpy_out (by omega), bios.int_out _ _ _ (by omega), memcpy_out (by omega),
      bios.int_out _ _ _ (by omega), store_out (by omega), bios.int_out _ _ _ (by omega),
      memcpy_in (by omega), Nat.add_sub_cancel_left, hloaded i hlow hi]
  · rw [memcpy_out (by omega), bios.int_out _ _ _ (by omega), memcpy_in (by omega),
      Nat.add_sub_cancel_left, Nat.zero_add]
  · rw [memcpy_in (by omega), Nat.zero_add, Nat.add_sub_cancel_left]
  · rw [memcpy_out (by omega), bios.int_out _ _ _ (by omega), memcpy_out (by omega),
      bios.int_out _ _ _ (by omega), store_out (by omega), bios.int_out _ _ _ (by omega),
      memcpy_out (by omega)]

/-- What the first stage leaves to the second. -/
structure HandedOver (bios : Bios) (sectors sector : Memory) (l : List (List UInt8)) (mem : Memory)
    (e : Entered) : Prop where
  cs : e.cs = wide 0 true
  ds : e.ds = wide 0 false
  eip : e.eip = 0
  pcimod : e.arg 0 = bios.pci.toNat
  memMap : e.arg 1 = 0x80000
  mapsz : e.arg 2 = l.length
  image : ∀ i < 62 * 512, e.mem i = sectors i
  last : ∀ i < 512, e.mem (62 * 512 + i) = sector i
  entries : ∀ (i : ℕ) (hi : i < l.length) (j : ℕ) (hj : j < l[i].length),
    e.mem (0x80000 + 24 * i + j) = l[i][j]
  rest : ∀ p ≥ 0x100000, e.mem p = mem p

/-- With these answers and room for the memory map it comes to the second stage. -/
theorem start_of_answers {dx : UInt16} {sectors sector : Memory} (hloaded : s.LoadedAt 0x7c00 mem)
    (hbuffer : ∀ c, (bios.smap c).bytes.length ≤ 24) (h : bios.Answers dx.toUInt8 sectors sector l)
    (hroom : l.length ≤ 2730) :
    ∃ e, HandedOver bios sectors sector l mem e ∧ ∀ fuel ≥ l.length, s.start bios fuel dx mem =
      .ok e := by
  have hfits := s.fits
  have hcode : s.bootDrive = s.code.length := rfl
  have hmode : s.pciAccessMode = s.bootDrive + 12 := rfl
  have hptr : s.smapPtr = s.bootDrive + 8 := rfl
  have hlen : s.smapLen = s.bootDrive + 4 := rfl
  have hgdt : s.gdt = s.bootDrive + 16 := rfl
  obtain ⟨hdata, hsectors, hsector, hrest⟩ := readIn_spec hloaded bios dx sectors sector
  generalize hread : s.readIn bios dx sectors sector mem = mem₁ at hdata hsectors hsector hrest
  obtain ⟨mem₂, hmapped, hloop⟩ := smapLoop_eq (n := 0) h.map hbuffer
    (show 0x90000 ≤ 0x90000 + s.smapLen ∧ 0x90000 + s.smapLen + 4 ≤ 0x90200 by omega)
    (show (0 : UInt16).toNat = 24 * 0 from rfl) (by omega)
    (hdata.zero (w := 4) (o := 4) (by decide) (by decide))
  obtain ⟨mem₃, hmem₃⟩ : ∃ m, m = store 2 (0x90000 + s.pciAccessMode) bios.pci.toNat
      (bios.int 0x1a 0 (store 4 (0x90000 + s.smapPtr) 0x80000 mem₂)) := ⟨_, rfl⟩
  have hmove : repMovsw 0x10000 0 (63 * 256) 0 0 mem₃ = memcpy mem₃ 0 mem₃ 0x10000 (63 * 512) :=
    repMovsw_eq (by decide) (by decide) (.inl (by decide)) mem₃
  obtain ⟨mem₄, hmem₄⟩ : ∃ m, m = memcpy mem₃ 0 mem₃ 0x10000 (63 * 512) := ⟨_, rfl⟩
  -- what each of the last steps leaves
  have hkeep₂ (p : ℕ) (hp : 0x500 ≤ p ∧ p < 0x80000 ∨ 0x90000 ≤ p ∧ (p < 0x90200 ∨ 0x100000 ≤ p))
      (hout : p < 0x90000 + s.smapLen ∨ 0x90000 + s.smapLen + 4 ≤ p) : mem₂ p = mem₁ p :=
    hmapped.frame p (by rw [BiosOwns]; omega) (by omega) hout
  have hkeep₃ (p : ℕ) (hout : 0x500 ≤ p ∧ p < 0x90000 + s.smapPtr ∨
      0x90000 + s.smapPtr + 6 ≤ p ∧ (p < 0x90200 ∨ 0x100000 ≤ p)) : mem₃ p = mem₂ p := by
    rw [hmem₃, store_out (by omega), bios.int_out _ _ _ (by omega), store_out (by omega)]
  have hkeep₄ (p : ℕ) (hp : 63 * 512 ≤ p) : mem₄ p = mem₃ p := by
    rw [hmem₄, memcpy_out (by omega)]
  have hmoved (i : ℕ) (hi : i < 63 * 512) : mem₄ i = mem₁ (0x10000 + i) := by
    rw [hmem₄, memcpy_in (by omega), Nat.sub_zero, hkeep₃ _ (by omega), hkeep₂ _ (by omega) (by omega)]
  have htable : s.Table mem₄ := hdata.table.congr fun i hi => by
    rw [hkeep₄ _ (by omega), hkeep₃ _ (by omega), hkeep₂ _ (by omega) (by omega)]
  obtain ⟨e, hrun, hcs, hds, heip, hpcimod, hmemMap, hmapsz, hmem⟩ := htable.to32
  refine ⟨e, ⟨hcs, hds, heip, ?_, ?_, ?_, fun i hi => ?_, fun i hi => ?_, fun i hi j hj => ?_,
    fun p hp => ?_⟩,
    fun fuel hfuel => ?_⟩
  · have hhigh : value mem₄ 2 (0x90000 + s.pciAccessMode + 2) = 0 := by
      rw [← hdata.zero (w := 2) (o := 14) (by decide) (by decide)]
      refine value_congr fun i hi => ?_
      rw [hkeep₄ _ (by omega), hkeep₃ _ (by omega), hkeep₂ _ (by omega) (by omega)]
      rfl
    have hlow : value mem₄ 2 (0x90000 + s.pciAccessMode) = bios.pci.toNat % 256 ^ 2 := by
      rw [← value_store 2 _ _ (bios.int 0x1a 0 (store 4 (0x90000 + s.smapPtr) 0x80000 mem₂)), ← hmem₃]
      exact value_congr fun i hi => hkeep₄ _ (by omega)
    have hlt : bios.pci.toNat < 256 ^ 2 := bios.pci.toNat_lt
    rw [hpcimod, value_four, hhigh, hlow, Nat.mod_eq_of_lt hlt]
    rfl
  · have hvalue : value mem₄ 4 (0x90000 + s.smapPtr) = value mem₃ 4 (0x90000 + s.smapPtr) :=
      value_congr fun i hi => hkeep₄ _ (by omega)
    have hint (m : Memory) : value (bios.int 0x1a 0 m) 4 (0x90000 + s.smapPtr) =
        value m 4 (0x90000 + s.smapPtr) :=
      value_congr fun i hi => bios.int_out _ _ _ (by omega)
    rw [hmemMap, hvalue, hmem₃, value_store_out (by omega), hint, value_store]
    rfl
  · have hvalue : value mem₄ 4 (0x90000 + s.smapLen) = value mem₂ 4 (0x90000 + s.smapLen) :=
      value_congr fun i hi => by rw [hkeep₄ _ (by omega), hkeep₃ _ (by omega)]
    rw [hmapsz, hvalue, hmapped.count, Nat.zero_add]
  · rw [hmem _ (by omega), hmoved _ (by omega), hsectors i hi]
  · rw [hmem _ (by omega), hmoved _ (by omega), ← Nat.add_assoc, hsector i hi]
  · have hbytes := h.map.length_le hbuffer _ (List.getElem_mem hi)
    rw [hmem _ (by omega), hkeep₄ _ (by omega), hkeep₃ _ (by omega)]
    have hentry := hmapped.entries i hi j hj
    rwa [Nat.zero_add] at hentry
  · rw [hmem _ (by omega), hkeep₄ _ (by omega), hkeep₃ _ (by omega), hkeep₂ _ (by omega) (by omega),
      hrest _ (by omega)]
  · rw [start_eq, ibf8042_ready.mpr (h.ready 0 (by decide)), ibf8042_ready.mpr (h.ready 1 (by decide)),
      ibf8042_ready.mpr (h.ready 2 (by decide)), h.sectors, h.sector]
    simp only [ok_bind]
    rw [hread, hloop fuel hfuel, ok_bind, ← hmem₃, hmove, ← hmem₄, hrun]

/-- The data are in the part of the boot sector that lies before the partition table. -/
theorem loadedAt_of_bin (h : ∀ i < 446, mem (0x7c00 + i) = s.bin.getD i 0) : s.LoadedAt 0x7c00 mem := by
  have hfits := s.fits
  have hlength : s.data.length = 46 := rfl
  intro i _ hi
  rw [h _ (by simp only [bootDrive]; omega), bin, bootDrive]
  simp only [List.append_assoc]
  rw [List.getD_append_right _ _ _ _ (Nat.le_add_right _ _), Nat.add_sub_cancel_left,
    List.getD_append _ _ _ _ (by omega)]

end Stage1

open Stage1 in
/-- The first stage hands over to the second exactly when the keyboard controller is ready, the BIOS
reads the sectors and lists the memory. The second stage then lies at address 0, its arguments are
the access mode of the PCI bus, the address of the memory map and the number of its entries, and the
entries are there, 24 bytes apart. -/
theorem stage1_hands_over (s : Stage1) {bios : Bios} {mem : Memory} (dx : UInt16)
    (hbin : ∀ i < 446, mem (0x7c00 + i) = s.bin.getD i 0)
    (hbuffer : ∀ c, (bios.smap c).bytes.length ≤ 24) (hroom : ∀ l, bios.Lists 0 l → l.length ≤ 2730) :
    ((∃ fuel e, s.start bios fuel dx mem = .ok e) ↔ ∃ sectors sector l,
      bios.Answers dx.toUInt8 sectors sector l) ∧
      ∀ sectors sector l, bios.Answers dx.toUInt8 sectors sector l →
        ∃ e, HandedOver bios sectors sector l mem e ∧ ∀ fuel ≥ l.length, s.start bios fuel dx mem =
        .ok e := by
  have hover (sectors sector : Memory) (l : List (List UInt8))
      (h : bios.Answers dx.toUInt8 sectors sector l) :=
    start_of_answers (loadedAt_of_bin hbin) hbuffer h (hroom l h.map)
  refine ⟨⟨fun h => ?_, fun h => ?_⟩, hover⟩
  · obtain ⟨fuel, e, hrun⟩ := h
    exact answers_of_start hrun
  · obtain ⟨sectors, sector, l, h⟩ := h
    obtain ⟨e, -, hrun⟩ := hover sectors sector l h
    exact ⟨l.length, e, hrun _ le_rfl⟩

/-- A boot sector without code. -/
def bareStage1 : Stage1 := ⟨[], 0, by decide⟩

/-- A BIOS with two ranges of memory. Setting the mode fills the screen with blanks. -/
def twoRanges : Stage1.Bios where
  status _ := 0
  sectors _ _ _ cl _ := some fun _ => cl
  smap c := ⟨0x534D4150, 0x534D4150, if c = 0 then 1 else 0, List.replicate 20 (if c = 0 then 1 else 2)⟩
  pci := 1
  int vector _ mem p := if vector = 0x10 ∧ 0xb8000 ≤ p ∧ p < 0xb8000 + 4000 then
    (if p % 2 = 0 then 32 else 7) else mem p
  int_eq _ _ _ p h := if_neg (by rw [Stage1.BiosOwns] at h; omega)

open Stage1 in
/-- The list of its two ranges. -/
theorem twoRanges_lists {l : List (List UInt8)} :
    twoRanges.Lists 0 l ↔ l = [List.replicate 20 1, List.replicate 20 2] := by
  constructor
  · intro h
    cases h with
    | last _ done => exact absurd done (by decide)
    | more _ _ rest =>
      cases rest with
      | last => rfl
      | more _ next => exact absurd rfl next
  · rintro rfl
    exact .more rfl (by decide) (.last rfl rfl)

open Stage1 in
/-- The second stage is told of the two ranges. -/
theorem stage1_hands_over_two : ∃ e, (∀ fuel ≥ 2, bareStage1.start twoRanges fuel 0x80
    (memcpy (fun _ => 0) 0x7c00 (.ofList bareStage1.bin) 0 512) = .ok e) ∧ e.arg 0 = 1 ∧
    e.arg 2 = 2 := by
  have hbin (i : ℕ) (hi : i < 446) :
      memcpy (fun _ => 0) 0x7c00 (.ofList bareStage1.bin) 0 512 (0x7c00 + i) =
      bareStage1.bin.getD i 0 := by
    rw [memcpy_in (by omega), Nat.zero_add, Nat.add_sub_cancel_left]
    rfl
  have hbuffer (c : UInt32) : (twoRanges.smap c).bytes.length ≤ 24 := by
    simp only [twoRanges, List.length_replicate]
    decide
  obtain ⟨-, hover⟩ := stage1_hands_over bareStage1 0x80 hbin hbuffer fun l hl => by
    rw [twoRanges_lists.mp hl]
    decide
  have hready (i : ℕ) (_ : i < 3) : twoRanges.status i &&& 2 = 0 := show (0 : UInt8) &&& 2 = 0 by decide
  obtain ⟨e, he, hrun⟩ := hover _ _ _ ⟨hready, rfl, rfl, twoRanges_lists.mpr rfl⟩
  exact ⟨e, hrun, he.pcimod, he.mapsz⟩

end Hobby386
