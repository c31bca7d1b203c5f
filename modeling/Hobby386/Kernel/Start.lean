import Hobby386.Grab.Stage1

/-!
# The kernel at its own addresses

The kernel is linked to 3G and runs near 1M, where the boot loader has put it. It loads a table of
its own, in which the code segment has base 1G + 1M, so that the addresses it was linked to wrap
around to the ones where it lies.
-/

namespace Hobby386

open LittleEndian Segments Stage1

/-- `kernel.bin` around the table, `go` being the offset of the label. -/
structure Kernel where
  code : List UInt8
  rest : List UInt8
  go : ℕ
  /-- The kernel is linked to 512K. -/
  fits : code.length + 30 + rest.length ≤ 512 * 1024
  within : go < code.length

namespace Kernel

variable (k : Kernel)

/-- The offset of `gdt`, behind the code. -/
def gdt : ℕ := k.code.length

/-- The offset of `gdt_ptr`. -/
def gdtPtr : ℕ := k.gdt + 24

/-- From `gdt` to the end of `kernel.S`. -/
def data : List UInt8 :=
  word 0 ++ word 0 ++ word 0 ++ word 0 ++ gdte 0xfffff 0x40100000 1 ++ gdte 0xfffff 0x40100000 0 ++
    (word (k.gdtPtr - k.gdt - 1) ++ long (k.gdt + 0x100000))

/-- `kernel.bin` -/
def bin : List UInt8 := k.code ++ k.data ++ k.rest

/-- `_start` up to `go`: the new code segment and the address of the next instruction. -/
def start (ds : Segment) (mem : Memory) : Option (Segment × ℕ) :=
  let gdtr := Gdtr.load mem 4 (ds.linear (k.gdtPtr + 0x100000))
  match gdtr.segment mem 8 with
  | some cs => if cs.IsCode ∧ 0xC0000000 + k.go ≤ cs.last then some (cs, 0xC0000000 + k.go) else none
  | none => none

/-- The kernel lies in memory where the boot loader puts it. -/
def LoadedIn (mem : Memory) : Prop := ∀ i, (h : i < k.bin.length) → mem (0x100000 + i) = k.bin[i]

variable {k} {mem : Memory}

/-- The parts of the kernel image. -/
theorem length_bin : k.bin.length = k.code.length + 30 + k.rest.length := by
  have hdata : k.data.length = 30 := rfl
  rw [bin, List.length_append, List.length_append, hdata]

/-- The data of the kernel in memory. -/
theorem LoadedIn.data (h : k.LoadedIn mem) {i : ℕ} (hi : i < 30) :
    mem (0x100000 + (k.gdt + i)) = k.data.getD i 0 := by
  have hdata : k.data.length = 30 := rfl
  have hbin : k.bin.getD (k.code.length + i) 0 = k.data.getD i 0 := by
    rw [bin, List.append_assoc, List.getD_append_right _ _ _ _ (Nat.le_add_right _ _),
      Nat.add_sub_cancel_left, List.getD_append _ _ _ _ (by omega)]
  have hlt : k.gdt + i < k.bin.length := by
    rw [length_bin, gdt]
    omega
  rw [h _ hlt, ← List.getD_eq_getElem k.bin 0 hlt]
  exact hbin

/-- The far jump loads the code segment of the kernel's own table. Through it every address that the
kernel is linked to leads to its byte. -/
theorem LoadedIn.start (h : k.LoadedIn mem) {ds : Segment} (hds : ds = wide 0 false) :
    ∃ cs, k.start ds mem = some (cs, 0xC0000000 + k.go) ∧
      cs.linear (0xC0000000 + k.go) = 0x100000 + k.go ∧
      ∀ i, (hi : i < k.bin.length) → cs.linear (0xC0000000 + i) = 0x100000 + i ∧
        mem (cs.linear (0xC0000000 + i)) = k.bin[i] := by
  have hfits := k.fits
  have hgo := k.within
  have hgdt : k.gdt = k.code.length := rfl
  have hptr : k.gdtPtr = k.gdt + 24 := rfl
  subst hds
  have hlimit : value mem 2 (0x100000 + (k.gdt + 24)) = 23 := by
    have hvalue : value mem 2 (0x100000 + (k.gdt + 24)) = (k.gdtPtr - k.gdt - 1) % 256 ^ 2 := by
      refine value_of_byte fun i hi => ?_
      rw [Nat.add_assoc, Nat.add_assoc, h.data (by omega)]
      interval_cases i <;> rfl
    rw [hvalue, hptr, Nat.add_sub_cancel_left]
    rfl
  have hbase : value mem 4 (0x100000 + (k.gdt + 26)) = k.gdt + 0x100000 := by
    have hvalue : value mem 4 (0x100000 + (k.gdt + 26)) = (k.gdt + 0x100000) % 256 ^ 4 := by
      refine value_of_byte fun i hi => ?_
      rw [Nat.add_assoc, Nat.add_assoc, h.data (by omega)]
      interval_cases i <;> rfl
    rw [hvalue, Nat.mod_eq_of_lt (by omega)]
  have hload : Gdtr.load mem 4 ((wide 0 false).linear (k.gdtPtr + 0x100000)) =
      ⟨23, k.gdt + 0x100000⟩ := by
    rw [linear_wide _ (by omega), Gdtr.load, hptr, Nat.add_comm, hlimit]
    exact congrArg _ hbase
  have hsegment : (Gdtr.mk 23 (k.gdt + 0x100000)).segment mem 8 = some (wide 0x40100000 true) := by
    refine Gdtr.segment_eq (show 8 + 7 ≤ 23 by decide) (by decide) fun i hi => ?_
    have haddress : k.gdt + 0x100000 + 8 + i = 0x100000 + (k.gdt + (8 + i)) := by omega
    rw [haddress, h.data (by omega), ← gdte_eq]
    interval_cases i <;> rfl
  have hlast : (wide 0x40100000 true).last = 2 ^ 32 - 1 := by decide
  have hcode : (wide 0x40100000 true).IsCode := by decide
  have hwrap : ((wide 0x40100000 true).base.toNat + 0xC0000000) % 2 ^ 32 = 0x100000 := by decide
  have hlinear (i : ℕ) (hi : i < 2 ^ 20) : (wide 0x40100000 true).linear (0xC0000000 + i) =
      0x100000 + i :=
    Segment.linear_of_base hwrap (by omega)
  refine ⟨wide 0x40100000 true, ?_, hlinear _ (by omega), fun i hi => ?_⟩
  · simp only [Kernel.start, hload, hsegment]
    rw [if_pos ⟨hcode, by rw [hlast]; omega⟩]
  · have hsize := length_bin (k := k)
    rw [hlinear i (by omega)]
    exact ⟨rfl, h i hi⟩

end Kernel

end Hobby386
