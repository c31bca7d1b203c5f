import Hobby386.Grab.Pci
import Hobby386.Lib.Walk
import Mathlib.Data.List.Nodup
import Mathlib.Data.Set.Card

/-!
# The scan of the PCI buses

`_pci_prob_dev` walks down from a bus through the bridges that it finds, and appends what it finds
to the table of devices. It compares the number of entries with nothing, and it does not remember
the buses it has scanned.
-/

namespace Hobby386

open Walk Relation

@[simp] abbrev ndevPerBus : ℕ := 32
@[simp] abbrev nfunPerDev : ℕ := 8
@[simp] abbrev pciClassBridge : BitVec 8 := 0x4
@[simp] abbrev pciSubclassPci2Pci : BitVec 8 := 0x6
@[simp] abbrev nullVendor : BitVec 16 := 0xffff
@[simp] abbrev npcidevMax : ℕ := 10

/-- `struct pcihdr`. -/
structure PciHeader where
  vendorid : BitVec 16
  deviceid : BitVec 16
  command : BitVec 16
  status : BitVec 16
  revisonid : BitVec 8
  progif : BitVec 8
  subclass : BitVec 8
  classCode : BitVec 8
  cachelinesz : BitVec 8
  latencytimer : BitVec 8
  headertype : BitVec 8
  bist : BitVec 8
  deriving DecidableEq

/-- `struct pcidev`. -/
structure PciDev extends PciFunction where
  hdr : PciHeader
  deriving DecidableEq

/-- The entry that `_pci_prob_dev` stores for a function. -/
def Pci.record (p : Pci) (f : PciFunction) : PciDev where
  toPciFunction := f
  hdr :=
    { vendorid := p.word f 0
      deviceid := p.word f 1
      command := 0
      status := p.word f 3
      revisonid := p.byte f 8
      progif := p.byte f 9
      subclass := p.byte f 10
      classCode := p.byte f 11
      cachelinesz := p.byte f 12
      latencytimer := p.byte f 13
      headertype := p.byte f 14
      bist := p.byte f 15 }

/-- `_pci_prob_dev` with the entries of `pcidevs` so far, each at the index at which it has been
stored; `none` if the recursion is deeper than the fuel. A read changes no configuration space, so
all of them are from one `p`. -/
def pciProbBus (p : Pci) : (fuel : ℕ) → (bus : BitVec 8) → List PciDev → Option (List PciDev)
  | 0, _, _ => none
  | fuel + 1, bus, pcidevs =>
    (List.range ndevPerBus).foldlM (fun pcidevs dev =>
      if p.word ⟨bus.toNat, dev, 0⟩ 0 = nullVendor then some pcidevs
      else
        let nfun := if p.byte ⟨bus.toNat, dev, 0⟩ 14 &&& 0x80 ≠ 0 then nfunPerDev else 1
        (List.range nfun).foldlM (fun pcidevs func =>
          if p.word ⟨bus.toNat, dev, func⟩ 0 = nullVendor then some pcidevs
          else
            let entry := p.record ⟨bus.toNat, dev, func⟩
            let pcidevs := pcidevs ++ [entry]
            if entry.hdr.classCode = pciClassBridge ∧ entry.hdr.subclass = pciSubclassPci2Pci then
              pciProbBus p fuel (p.byte ⟨bus.toNat, dev, func⟩ 25) pcidevs
            else some pcidevs) pcidevs) pcidevs

/-- `pci_prob_dev`. -/
def pciProbDev (p : Pci) (fuel : ℕ) : Option (List PciDev) := pciProbBus p fuel 0 []

/-! ## The functions of the buses -/

/-- A function is present: its device answers, it answers itself, and it is the first function or
one of a multi-function device. -/
structure Pci.Present (p : Pci) (f : PciFunction) : Prop where
  valid : f.Valid
  device : p.word ⟨f.bus, f.dev, 0⟩ 0 ≠ nullVendor
  vendor : p.word f 0 ≠ nullVendor
  multi : f.func = 0 ∨ p.byte ⟨f.bus, f.dev, 0⟩ 14 &&& 0x80 ≠ 0

/-- The scan takes the function for a bridge to another bus: its class is 4 and its subclass 6. The
bridges that the comments of the scan are about have class 6 and subclass 4. -/
def Pci.IsBridge (p : Pci) (f : PciFunction) : Prop :=
  p.byte f 11 = pciClassBridge ∧ p.byte f 10 = pciSubclassPci2Pci

instance (p : Pci) (f : PciFunction) : Decidable (p.IsBridge f) := inferInstanceAs (Decidable (_ ∧ _))

/-- The secondary bus of a bridge. -/
def Pci.secondaryBus (p : Pci) (f : PciFunction) : BitVec 8 := p.byte f 25

/-- A bridge leads from one bus to the other. -/
def Pci.BusEdge (p : Pci) (bus bus' : BitVec 8) : Prop :=
  ∃ f, p.Present f ∧ f.bus = bus.toNat ∧ p.IsBridge f ∧ p.secondaryBus f = bus'

/-- A function is present on bus 0, or on a bus that can be reached from there through bridges. -/
def Pci.Reached (p : Pci) (f : PciFunction) : Prop :=
  p.Present f ∧ ∃ bus, ReflTransGen p.BusEdge 0 bus ∧ f.bus = bus.toNat

/-- The buses that can be reached form a tree with bus 0 at its root. -/
structure Pci.IsBusTree (p : Pci) : Prop where
  top : ∀ {f}, p.Reached f → p.IsBridge f → p.secondaryBus f ≠ 0
  parent : ∀ {f f'}, p.Reached f → p.Reached f' → p.IsBridge f → p.IsBridge f' →
    p.secondaryBus f = p.secondaryBus f' → f = f'

/-- The functions of a device that are present. -/
def Pci.functions (p : Pci) (bus dev : ℕ) : List PciFunction :=
  if p.word ⟨bus, dev, 0⟩ 0 = nullVendor then []
  else
    ((List.range (if p.byte ⟨bus, dev, 0⟩ 14 &&& 0x80 ≠ 0 then nfunPerDev else 1)).map
      fun func => ⟨bus, dev, func⟩).filter fun f => p.word f 0 ≠ nullVendor

/-- The functions on a bus in the order of the scan, and the buses behind them. -/
def Pci.buses (p : Pci) : Network (BitVec 8) PciFunction where
  items bus := (List.range ndevPerBus).flatMap (p.functions bus.toNat)
  child f := if p.IsBridge f then some (p.secondaryBus f) else none

variable {p : Pci} {f : PciFunction} {bus bus' : BitVec 8}

/-- The functions of a device are those that are present on it. -/
theorem mem_functions {b d : ℕ} (hb : b < 256) (hd : d < 32) :
    f ∈ p.functions b d ↔ p.Present f ∧ f.bus = b ∧ f.dev = d := by
  obtain ⟨b', d', n⟩ := f
  rw [Pci.functions]
  constructor
  · intro hmem
    split at hmem
    · cases hmem
    · rename_i hdevice
      simp only [List.mem_filter, List.mem_map, List.mem_range, decide_eq_true_eq] at hmem
      obtain ⟨⟨func, hfunc, heq⟩, hvendor⟩ := hmem
      cases heq
      refine ⟨⟨⟨hb, hd, ?_⟩, hdevice, hvendor, ?_⟩, rfl, rfl⟩
      · split at hfunc
        · exact hfunc
        · exact hfunc.trans_le (by decide)
      · split at hfunc
        · rename_i hmulti
          exact .inr hmulti
        · exact .inl (Nat.lt_one_iff.mp hfunc)
  · rintro ⟨⟨hvalid, hdevice, hvendor, hmulti⟩, hbus, hdev⟩
    dsimp only at hbus hdev hdevice hmulti
    subst hbus hdev
    rw [if_neg hdevice]
    simp only [List.mem_filter, List.mem_map, List.mem_range, decide_eq_true_eq]
    refine ⟨⟨n, ?_, rfl⟩, hvendor⟩
    split
    · exact hvalid.func
    · rename_i hsingle
      rw [hmulti.resolve_right hsingle]
      exact Nat.one_pos

/-- No function of a device is listed twice. -/
theorem nodup_functions (p : Pci) (b d : ℕ) : (p.functions b d).Nodup := by
  rw [Pci.functions]
  split
  · exact List.nodup_nil
  · exact (List.nodup_range.map fun _ _ h => (PciFunction.mk.inj h).2.2).filter _

/-- The items of a bus are the functions present on it. -/
theorem mem_items : f ∈ p.buses.items bus ↔ p.Present f ∧ f.bus = bus.toNat := by
  simp only [Pci.buses, List.mem_flatMap, List.mem_range]
  constructor
  · rintro ⟨d, hd, hmem⟩
    obtain ⟨hpresent, hbus, -⟩ := (mem_functions bus.isLt hd).mp hmem
    exact ⟨hpresent, hbus⟩
  · rintro ⟨hpresent, hbus⟩
    exact ⟨f.dev, hpresent.valid.dev, (mem_functions bus.isLt hpresent.valid.dev).mpr
      ⟨hpresent, hbus, rfl⟩⟩

/-- A bus is behind a function when this is a bridge to it. -/
theorem child_eq_some : p.buses.child f = some bus ↔ p.IsBridge f ∧ p.secondaryBus f = bus := by
  simp only [Pci.buses]
  split
  · rename_i hbridge
    simp [hbridge]
  · rename_i hbridge
    simp [hbridge]

/-- The edges of the network are the bridges. -/
theorem buses_edge : p.buses.Edge = p.BusEdge := by
  funext bus bus'
  simp only [Network.Edge, Pci.BusEdge, mem_items, child_eq_some, and_assoc]

/-- The functions on a bus have no repetitions, and no two buses have one in common. -/
theorem buses_proper (p : Pci) : p.buses.Proper where
  nodup bus := by
    refine List.nodup_flatMap.mpr ⟨fun d _ => nodup_functions p _ d, ?_⟩
    refine List.nodup_range.imp_of_mem fun {a b} ha hb hne f hfa hfb => hne ?_
    have hdev := ((mem_functions bus.isLt (List.mem_range.mp ha)).mp hfa).2.2
    exact hdev.symm.trans ((mem_functions bus.isLt (List.mem_range.mp hb)).mp hfb).2.2
  owner h h' := BitVec.eq_of_toNat_eq ((mem_items.mp h).2.symm.trans (mem_items.mp h').2)

/-- A tree of buses is a tree as a network. -/
theorem Pci.IsBusTree.buses (h : p.IsBusTree) : p.buses.IsTree 0 where
  top hreach hf hchild := by
    obtain ⟨hpresent, hbus⟩ := mem_items.mp hf
    obtain ⟨hbridge, hzero⟩ := child_eq_some.mp hchild
    exact h.top ⟨hpresent, _, buses_edge ▸ hreach, hbus⟩ hbridge hzero
  parent hreach hreach' hf hf' hchild hchild' := by
    obtain ⟨hpresent, hbus⟩ := mem_items.mp hf
    obtain ⟨hpresent', hbus'⟩ := mem_items.mp hf'
    obtain ⟨hbridge, hsecond⟩ := child_eq_some.mp hchild
    obtain ⟨hbridge', hsecond'⟩ := child_eq_some.mp hchild'
    exact h.parent ⟨hpresent, _, buses_edge ▸ hreach, hbus⟩ ⟨hpresent', _, buses_edge ▸ hreach',
      hbus'⟩ hbridge hbridge' (hsecond.trans hsecond'.symm)

/-! ## The scan is the walk -/

/-- What the scan does for a function that is present. -/
def scanFunction (p : Pci) (fuel : ℕ) (pcidevs : List PciDev) (f : PciFunction) : Option (List PciDev) :=
  if p.IsBridge f then pciProbBus p fuel (p.secondaryBus f) (pcidevs ++ [p.record f])
  else some (pcidevs ++ [p.record f])

/-- A fold over concatenated lists is a fold of folds. -/
theorem foldlM_flatMap {α β γ : Type} (g : α → List β) (step : γ → β → Option γ) (l : List α) (s : γ) :
    (l.flatMap g).foldlM step s = l.foldlM (fun s a => (g a).foldlM step s) s := by
  induction l generalizing s with
  | nil => rfl
  | cons a l ih =>
    rw [List.flatMap_cons, List.foldlM_append, List.foldlM_cons]
    simp only [ih]

/-- The two loops of a scan run over the functions that are present. -/
theorem pciProbBus_succ (p : Pci) (fuel : ℕ) (bus : BitVec 8) (pcidevs : List PciDev) :
    pciProbBus p (fuel + 1) bus pcidevs = (p.buses.items bus).foldlM (scanFunction p fuel) pcidevs := by
  rw [pciProbBus, Pci.buses, foldlM_flatMap]
  congr
  funext pcidevs dev
  rw [Pci.functions]
  split
  · rfl
  · rw [List.foldlM_filter, List.foldlM_map]
    dsimp only
    congr
    funext pcidevs func
    by_cases hvendor : p.word ⟨bus.toNat, dev, func⟩ 0 = nullVendor
    · rw [if_pos hvendor, if_neg (by simpa using hvendor)]
      rfl
    · rw [if_neg hvendor, if_pos (decide_eq_true hvendor), scanFunction]
      rfl

/-- A function gets its entry, and the scan of the bus behind it follows. -/
theorem scanFunction_eq {fuel : ℕ} (hbus : ∀ bus pcidevs, pciProbBus p fuel bus pcidevs =
    (p.buses.walk fuel bus).map fun l => pcidevs ++ l.map p.record)
    (pcidevs : List PciDev) (f : PciFunction) :
    scanFunction p fuel pcidevs f = ((p.buses.child f).elim (some []) (p.buses.walk fuel)).map
      fun sub => pcidevs ++ (f :: sub).map p.record := by
  rw [scanFunction]
  by_cases hbridge : p.IsBridge f
  · have hchild : p.buses.child f = some (p.secondaryBus f) := child_eq_some.mpr ⟨hbridge, rfl⟩
    rw [if_pos hbridge, hbus, hchild, Option.elim_some]
    simp
  · have hchild : p.buses.child f = none := by simp [Pci.buses, hbridge]
    rw [if_neg hbridge, hchild, Option.elim_none]
    simp

/-- The scan of a list of functions is the walk over them, if the scan of the buses below is. -/
theorem foldlM_scanFunction {fuel : ℕ} (hbus : ∀ bus pcidevs, pciProbBus p fuel bus pcidevs =
    (p.buses.walk fuel bus).map fun l => pcidevs ++ l.map p.record) (fs : List PciFunction)
    (pcidevs : List PciDev) :
    fs.foldlM (scanFunction p fuel) pcidevs =
      (p.buses.walkItems (p.buses.walk fuel) fs).map fun l => pcidevs ++ l.map p.record := by
  induction fs generalizing pcidevs with
  | nil => simp [Network.walkItems]
  | cons f fs ih =>
    rw [List.foldlM_cons, scanFunction_eq hbus, Network.walkItems]
    cases (p.buses.child f).elim (some []) (p.buses.walk fuel) with
    | none => rfl
    | some sub =>
      rw [Option.map_some]
      simp only [Option.bind_eq_bind, Option.bind_some, ih]
      cases p.buses.walkItems (p.buses.walk fuel) fs with
      | none => rfl
      | some rest => simp

/-- The scan appends the entries of the functions that the walk meets. -/
theorem pciProbBus_eq (p : Pci) (fuel : ℕ) (bus : BitVec 8) (pcidevs : List PciDev) :
    pciProbBus p fuel bus pcidevs = (p.buses.walk fuel bus).map fun l => pcidevs ++ l.map p.record := by
  induction fuel generalizing bus pcidevs with
  | zero => rfl
  | succ fuel ih =>
    rw [pciProbBus_succ, Network.walk]
    exact foldlM_scanFunction ih _ pcidevs

/-- The scan returns what the walk over the network returns, as records. -/
theorem pciProbDev_eq_some {fuel : ℕ} {pcidevs : List PciDev} : pciProbDev p fuel = some pcidevs ↔
    ∃ l, p.buses.walk fuel 0 = some l ∧ l.map p.record = pcidevs := by
  rw [pciProbDev, pciProbBus_eq, Option.map_eq_some_iff]
  rfl

instance finite_bus : Finite (BitVec 8) :=
  Finite.of_injective BitVec.toFin fun _ _ h => BitVec.eq_of_toFin_eq h

/-! ## The end of the scan -/

/-- The scan ends if and only if no cycle of bridges can be reached from bus 0. -/
theorem pciProbDev_ends_iff (p : Pci) : (∃ fuel pcidevs, pciProbDev p fuel = some pcidevs) ↔
    ¬∃ bus, ReflTransGen p.BusEdge 0 bus ∧ TransGen p.BusEdge bus bus := by
  rw [← buses_edge, ← walk_ends_iff]
  constructor
  · rintro ⟨fuel, pcidevs, hscan⟩
    obtain ⟨l, hwalk, -⟩ := pciProbDev_eq_some.mp hscan
    exact ⟨fuel, l, hwalk⟩
  · rintro ⟨fuel, l, hwalk⟩
    exact ⟨fuel, _, pciProbDev_eq_some.mpr ⟨l, hwalk, rfl⟩⟩

/-- A machine with one bridge, whose secondary bus number has not been set. -/
def unsetBridge : Pci := ⟨0, fun f d =>
  if f = ⟨0, 0, 0⟩ then (if d = 0 then 0x00011011 else if d = 2 then 0x04060000 else 0) else 0xffffffff⟩

/-- The scan of that machine goes deeper and deeper. -/
theorem not_pciProbDev_ends : unsetBridge.Present ⟨0, 0, 0⟩ ∧ unsetBridge.IsBridge ⟨0, 0, 0⟩ ∧
    unsetBridge.secondaryBus ⟨0, 0, 0⟩ = 0 ∧ ∀ fuel, pciProbDev unsetBridge fuel = none := by
  have hpresent : unsetBridge.Present ⟨0, 0, 0⟩ :=
    ⟨⟨by decide, by decide, by decide⟩, by decide +kernel, by decide +kernel, .inl rfl⟩
  have hbridge : unsetBridge.IsBridge ⟨0, 0, 0⟩ := by decide +kernel
  have hsecond : unsetBridge.secondaryBus ⟨0, 0, 0⟩ = 0 := by decide +kernel
  have hcycle : TransGen unsetBridge.buses.Edge 0 0 := by
    rw [buses_edge]
    exact .single ⟨_, hpresent, rfl, hbridge, hsecond⟩
  refine ⟨hpresent, hbridge, hsecond, fun fuel => ?_⟩
  rw [pciProbDev, pciProbBus_eq, walk_cycle hcycle, Option.map_none]

/-! ## The table -/

/-- A function with its own location and header. -/
def Pci.device (p : Pci) (f : PciFunction) : PciDev :=
  { p.record f with hdr := { (p.record f).hdr with command := p.word f 2 } }

/-- The table has every function that is reached exactly once and nothing else, and no entry has
been stored behind its end. -/
structure Pci.Records (p : Pci) (pcidevs : List PciDev) : Prop where
  once : ∀ f, p.Reached f → pcidevs.count (p.device f) = 1
  only : ∀ e ∈ pcidevs, ∃ f, p.Reached f ∧ e = p.device f
  inTable : ∀ i < pcidevs.length, i < npcidevMax

/-- The record of a function is its header exactly when its command register is zero. -/
theorem record_eq_device_iff : p.record f = p.device f ↔ p.word f 2 = 0 := by
  constructor
  · intro h
    exact (congrArg (fun e => e.hdr.command) h).symm
  · intro h
    rw [Pci.device, h]
    rfl

/-- Different functions have different records. -/
theorem record_injective (p : Pci) : Function.Injective p.record :=
  fun _ _ h => congrArg PciDev.toPciFunction h

/-- In a tree the scan ends, and it meets every function that is reached once. -/
theorem Pci.IsBusTree.scan (h : p.IsBusTree) : ∃ l : List PciFunction, l.Nodup ∧
    (∀ f, f ∈ l ↔ p.Reached f) ∧
    ∃ calls, ∀ fuel ≥ calls, pciProbDev p fuel = some (l.map p.record) := by
  obtain ⟨calls, l, hwalk⟩ := walk_ends_iff.mpr fun ⟨_, hreach, hcycle⟩ =>
    h.buses.acyclic (buses_proper p) hreach hcycle
  refine ⟨l, h.buses.nodup_walk (buses_proper p) .refl hwalk, fun f => ?_, calls, fun fuel hfuel => ?_⟩
  · rw [mem_walk hwalk, Pci.Reached, buses_edge]
    simp only [mem_items]
    constructor
    · rintro ⟨bus, hreach, hpresent, hbus⟩
      exact ⟨hpresent, bus, hreach, hbus⟩
    · rintro ⟨hpresent, bus, hreach, hbus⟩
      exact ⟨bus, hreach, hpresent, hbus⟩
  · exact pciProbDev_eq_some.mpr ⟨l, walk_mono hfuel hwalk, rfl⟩

/-- How many functions are reached. -/
theorem encard_reached {l : List PciFunction} (hnodup : l.Nodup) (hmem : ∀ f, f ∈ l ↔ p.Reached f) :
    {f | p.Reached f}.encard = l.length := by
  have hset : {f | p.Reached f} = (l.toFinset : Set PciFunction) := by
    ext f
    rw [Set.mem_ofPred_eq, List.coe_toFinset, Set.mem_ofPred_eq, hmem]
  rw [hset, Set.encard_coe_eq_coe_finsetCard, List.toFinset_card_of_nodup hnodup]

/-- What the scan records is right if and only if the functions fit into the table and their command
words are 0. -/
theorem records_iff {l : List PciFunction} (hnodup : l.Nodup) (hmem : ∀ f, f ∈ l ↔ p.Reached f) :
    p.Records (l.map p.record) ↔
      {f | p.Reached f}.encard ≤ npcidevMax ∧ ∀ f, p.Reached f → p.word f 2 = 0 := by
  rw [encard_reached hnodup hmem, Nat.cast_le]
  constructor
  · intro hrecords
    refine ⟨?_, fun f hf => ?_⟩
    · by_contra hlong
      have hlast := hrecords.inTable npcidevMax (by rw [List.length_map]; omega)
      exact absurd hlast (lt_irrefl _)
    · have honce : 0 < (l.map p.record).count (p.device f) := by
        rw [hrecords.once f hf]
        exact Nat.one_pos
      have hentry := List.count_pos_iff.mp honce
      obtain ⟨f', -, heq⟩ := List.mem_map.mp hentry
      obtain rfl : f' = f := congrArg PciDev.toPciFunction heq
      exact record_eq_device_iff.mp heq
  · rintro ⟨hlength, hcommand⟩
    refine ⟨fun f hf => ?_, fun e he => ?_, fun i hi => ?_⟩
    · rw [← record_eq_device_iff.mpr (hcommand f hf)]
      exact List.count_eq_one_of_mem (hnodup.map (record_injective p))
        (List.mem_map_of_mem ((hmem f).mpr hf))
    · obtain ⟨f, hf, rfl⟩ := List.mem_map.mp he
      exact ⟨f, (hmem f).mp hf, record_eq_device_iff.mpr (hcommand f ((hmem f).mp hf))⟩
    · rw [List.length_map] at hi
      omega

/-- On a machine whose buses form a tree the scan records every function that is reached exactly
once, with its header and within the table, if and only if there are no more than the table has room
for and their command words are 0. -/
theorem pciProbDev_records_iff (htree : p.IsBusTree) :
    (∃ pcidevs, (∃ calls, ∀ fuel ≥ calls, pciProbDev p fuel = some pcidevs) ∧ p.Records pcidevs) ↔
      {f | p.Reached f}.encard ≤ npcidevMax ∧ ∀ f, p.Reached f → p.word f 2 = 0 := by
  obtain ⟨l, hnodup, hmem, calls, hscan⟩ := htree.scan
  rw [← records_iff hnodup hmem]
  constructor
  · rintro ⟨pcidevs, ⟨calls', hscan'⟩, hrecords⟩
    have hsame := (hscan (max calls calls') (le_max_left _ _)).symm.trans (hscan' _ (le_max_right _ _))
    cases hsame
    exact hrecords
  · exact fun hrecords => ⟨_, ⟨calls, hscan⟩, hrecords⟩

/-- A machine with `n` devices of one function each on bus 0, and no bridges. -/
def flatBus (n : ℕ) : Pci := ⟨0, fun f d =>
  if f.bus = 0 ∧ f.dev < n ∧ f.func = 0 then (if d = 0 then 0x00011011 else 0) else 0xffffffff⟩

/-- One bus is a tree. -/
theorem flatBus_isBusTree (n : ℕ) : (flatBus n).IsBusTree := by
  have hnone : ∀ f, (flatBus n).Reached f → ¬(flatBus n).IsBridge f := by
    intro f hf hbridge
    have hclass := hbridge.1
    rw [byte_eq hf.1.valid (by decide)] at hclass
    simp only [flatBus] at hclass
    split at hclass
    · exact absurd hclass (by decide)
    · exact absurd hclass (by decide)
  exact ⟨fun hf hbridge => absurd hbridge (hnone _ hf), fun hf _ hbridge => absurd hbridge (hnone _ hf)⟩

/-- The characterisation for a table that is just full. -/
theorem pciProbDev_records_iff_full : (flatBus 10).IsBusTree ∧
    ((∃ pcidevs, (∃ calls, ∀ fuel ≥ calls, pciProbDev (flatBus 10) fuel = some pcidevs) ∧
        (flatBus 10).Records pcidevs) ↔
      {f | (flatBus 10).Reached f}.encard ≤ npcidevMax ∧
        ∀ f, (flatBus 10).Reached f → (flatBus 10).word f 2 = 0) :=
  ⟨flatBus_isBusTree 10, pciProbDev_records_iff (flatBus_isBusTree 10)⟩

/-- The eleventh device is stored behind the end of the table. -/
theorem not_pciProbDev_records : (flatBus 11).IsBusTree ∧
    (pciProbDev (flatBus 11) 1).map List.length = some 11 ∧
    ¬∃ pcidevs, (∃ calls, ∀ fuel ≥ calls, pciProbDev (flatBus 11) fuel = some pcidevs) ∧
      (flatBus 11).Records pcidevs := by
  have hlength : (pciProbDev (flatBus 11) 1).map List.length = some 11 := by decide +kernel
  refine ⟨flatBus_isBusTree 11, hlength, ?_⟩
  rintro ⟨pcidevs, ⟨calls, hscan⟩, hrecords⟩
  obtain ⟨pcidevs', hfirst, hsize⟩ := Option.map_eq_some_iff.mp hlength
  obtain ⟨l, hwalk, rfl⟩ := pciProbDev_eq_some.mp hfirst
  have hlater := pciProbDev_eq_some.mpr ⟨l, walk_mono (le_max_left 1 calls) hwalk, rfl⟩
  rw [hscan _ (le_max_right 1 calls)] at hlater
  cases hlater
  exact absurd (hrecords.inTable 10 (by omega)) (by decide)

end Hobby386
