import Hobby386.Mkfs.FileRoom

/-!
# Loading a system

The loop of `boot` in the boot shell, which reads a file block by block to a fixed address. It moves
the target by a whole block after every read, also after a short one at the end of the file.
-/

namespace Hobby386

open PointerForest Runs

/-- The address a system is loaded at. -/
@[simp] abbrev loadAddress : ℕ := 0x100000

/-- The load loop of `boot`, from address `p` and offset `off` on: the memory at the end, `none` when the
fuel is spent before. -/
def loadBlocks (inum : ℕ) : (fuel p off : ℕ) → Memory → Fs → Except Fault (Option Memory × Fs)
  | 0, _, _, _, fs => .ok (none, fs)
  | fuel + 1, p, off, mem, fs => do
    let r ← fsRead fs inum (fun _ => 0) blockSize off
    if r.1 < 0 then .error .panic
    else if r.1 = 0 then .ok (some mem, r.2.2)
    else
      loadBlocks inum fuel (u32 (p + blockSize)) (u32 (off + bits32 r.1))
        (memcpy mem p r.2.1 0 r.1.toNat) r.2.2

variable {fs : Fs} {inum : ℕ} {D : List UInt8}

/-- Copying the next bytes behind those already copied. -/
theorem memcpy_append {mem src next : Memory} {p i n : ℕ} (h : ∀ j < n, next j = src (i + j)) :
    memcpy (memcpy mem p src 0 i) (p + i) next 0 n = memcpy mem p src 0 (i + n) := by
  funext a
  simp only [memcpy, Nat.zero_add]
  by_cases hnew : p + i ≤ a ∧ a < p + i + n
  · rw [if_pos hnew, if_pos (by omega), h _ (by omega)]
    congr 1
    omega
  · rw [if_neg hnew]
    by_cases hold : p ≤ a ∧ a < p + i
    · rw [if_pos hold, if_pos (by omega)]
    · rw [if_neg hold, if_neg (by omega)]

/-- The load loop puts the rest of the file behind what it has loaded. Before the last block the target
has moved as far as the offset. -/
theorem Holds.loadBlocks (h : Holds fs inum D) (hwf : WellFormed fs) (mem : Memory) {fuel p off : ℕ}
    (hfuel : D.length - off < fuel) (hoff : off ≤ D.length)
    (hp : off < D.length → p = loadAddress + off) :
    Hobby386.loadBlocks inum fuel p off (memcpy mem loadAddress (.ofList D) 0 off) fs =
      .ok (some (memcpy mem loadAddress (.ofList D) 0 D.length), fs) := by
  induction fuel generalizing p off with
  | zero => exact absurd hfuel (Nat.not_lt_zero _)
  | succ fuel ih =>
    rw [Hobby386.loadBlocks]
    rcases Nat.eq_or_lt_of_le hoff with rfl | hlt
    · rw [h.read_end hwf (by decide), ok_bind, if_neg (lt_irrefl _), if_pos rfl]
    · obtain ⟨next, hread, hnext⟩ := h.read hwf (show blockSize ≤ 0x7fffffff by decide) hlt fun _ => 0
      have hmax := h.length_le
      simp only [maxBytes, maxBlocks] at hmax
      have hn : min blockSize (D.length - off) = min 512 (D.length - off) := rfl
      rw [hn] at hread hnext
      have hbits : bits32 ((min 512 (D.length - off) : ℕ) : ℤ) = min 512 (D.length - off) :=
        bits32_of_nonneg (Int.natCast_nonneg _) (by omega)
      rw [hread, ok_bind, if_neg (by omega), if_neg (by omega), hbits, Int.toNat_natCast, hp hlt,
        memcpy_append hnext, u32_of_lt (show off + min 512 (D.length - off) < 4294967296 by omega),
        u32_of_lt (by simp only [loadAddress, blockSize]; omega)]
      refine ih (by omega) (by omega) fun hmore => ?_
      simp only [blockSize]
      omega

/-- Files are transferred faithfully: what has been written to a new file in consecutive chunks of
any sizes is what consecutive reads of any size return, and what the boot loader puts at its load
address; and a file that `do_migrate` has copied into the image is what `do_retrieve` copies out of
it. -/
theorem file_transfer (hreach : Reachable fs) :
    (∀ (path : Option CString) (inum : ℕ) (chunks : List (List UInt8)) (fs₁ fs₂ : Fs),
      fsMknod fs path tReg = .ok (inum, fs₁) → inum ≠ nullInum →
      (∀ d ∈ chunks, 0 < d.length ∧ d.length ≤ 0x7fffffff) →
      writeChunks inum 0 chunks fs₁ = .ok (true, fs₂) →
      (∀ sz, 0 < sz → sz ≤ 0x7fffffff → ∃ calls, ∀ fuel ≥ calls,
        readChunks inum sz fuel 0 fs₂ = .ok (some chunks.flatten, fs₂)) ∧
      ∀ mem, ∃ calls, ∀ fuel ≥ calls, loadBlocks inum fuel loadAddress 0 mem fs₂ =
        .ok (some (memcpy mem loadAddress (.ofList chunks.flatten) 0 chunks.flatten.length), fs₂)) ∧
    ∀ (path : CString) (D : List UInt8) (fs₂ : Fs), FittingPath (some path) →
      (∃ r, fsLookup fs (some path) = .ok r ∧ r.1 = nullInum) → migrate fs (some D) path = .ok fs₂ →
      ∃ calls, ∀ fuel ≥ calls, retrieve fuel fs₂ path true = .ok (.copied D, fs₂) := by
  have hsound := hreach.sane.sound
  constructor
  · intro path inum chunks fs₁ fs₂ hmknod hinum hchunks hwrite
    obtain ⟨hlt, -, -, hdi⟩ := fsMknod_new hsound hmknod hinum
    obtain ⟨hholds, hsound₂⟩ := (holds_nil hlt hdi).writeChunks (hsound.mknod hmknod)
      (fun d hd => (hchunks d hd).2) hwrite
    rw [List.nil_append] at hholds
    constructor
    · intro sz hpos hsz
      refine ⟨chunks.flatten.length + 1, fun fuel hfuel => ?_⟩
      exact hholds.readChunks hsound₂.wellFormed hpos hsz (by omega) (Nat.zero_le _)
    · intro mem
      refine ⟨chunks.flatten.length + 1, fun fuel hfuel => ?_⟩
      have hload := hholds.loadBlocks hsound₂.wellFormed mem (show _ - 0 < fuel by omega) (Nat.zero_le _)
        (fun _ => show loadAddress = loadAddress + 0 from rfl)
      have hempty : memcpy mem loadAddress (.ofList chunks.flatten) 0 0 = mem := by
        funext a
        simp only [memcpy]
        rw [if_neg (by omega)]
      rwa [hempty] at hload
  · rintro path D fs₂ ⟨p, hp, hlen, hshort⟩ hnew hmigrate
    cases hp
    exact ⟨D.length + 1, fun fuel hfuel => retrieve_migrate hsound hlen hshort hnew hmigrate hfuel⟩

/-- Two chunks, of which the second crosses into the next block. -/
def twoChunks : List (List UInt8) := [.replicate 300 7, .replicate 300 8]

/-- The transfer of a file in two chunks, and of the same bytes one by one. -/
theorem file_transfer_chunks : ∃ fs fs₁ fs₂ fs₃, Reachable fs ∧
    fsMknod fs (some pathA) tReg = .ok (2, fs₁) ∧
    writeChunks 2 0 twoChunks fs₁ = .ok (true, fs₂) ∧
    (∀ sz, 0 < sz → sz ≤ 0x7fffffff → ∃ calls, ∀ fuel ≥ calls,
      readChunks 2 sz fuel 0 fs₂ = .ok (some twoChunks.flatten, fs₂)) ∧
    (∀ mem, ∃ calls, ∀ fuel ≥ calls, loadBlocks 2 fuel loadAddress 0 mem fs₂ =
      .ok (some (memcpy mem loadAddress (.ofList twoChunks.flatten) 0 600), fs₂)) ∧
    migrate fs (some twoChunks.flatten) pathA = .ok fs₃ ∧
    ∃ calls, ∀ fuel ≥ calls, retrieve fuel fs₃ pathA true = .ok (.copied twoChunks.flatten, fs₃) := by
  obtain ⟨fs, fs₁, hfresh, hmknod, hreach₁, hdi, hroom⟩ := exists_reachable_mknod
  have hsound := hfresh.sane.sound
  have hreach : Reachable fs := ⟨fs, [], hfresh, .start⟩
  obtain ⟨⟨hwf₁, -, -, -⟩, -, hdat⟩ := hreach₁.sane
  have hlen : twoChunks.flatten.length = 600 := by
    rw [twoChunks, List.flatten_cons, List.flatten_cons, List.flatten_nil, List.append_nil,
      List.length_append, List.length_replicate, List.length_replicate]
  have hsizes : ∀ d ∈ twoChunks, d.length = 300 :=
    List.forall_mem_cons.mpr ⟨List.length_replicate, List.forall_mem_singleton.mpr List.length_replicate⟩
  have hlookup : fsLookup fs (some pathA) = .ok (nullInum, fs) := by
    have hshort : pathA.ShortNames := shortNames_of_length (by decide)
    obtain ⟨rest, hbytes, hnone, -⟩ := fsMknod_found hsound hshort hmknod (by decide) (by decide)
    rw [fsLookup_eq hsound.wellFormed.init hsound.wellFormed.layout hsound.dirs hbytes
      (by decide) hshort, hnone]
  obtain ⟨fs₂, hchunks⟩ : ∃ fs₂, writeChunks 2 0 twoChunks fs₁ = .ok (true, fs₂) := by
    have hbare : (fs₁.dinode 2).Bare := by
      rw [hdi]
      rfl
    have hnulls := length_nulls_bare hbare (show 0 < 600 by decide) (by decide)
    refine (holds_nil (by decide) hdi).writeChunks_returns hwf₁ hdat
      (fun d hd => by rw [hsizes d hd]; decide) ?_ ?_
    · rw [hlen]
      decide
    · rw [hlen]
      exact hnulls.trans_le (by rw [hroom]; decide)
  obtain ⟨fs₃, hbytes⟩ : ∃ fs₃, migrateBytes 2 0 twoChunks.flatten fs₁ = .ok fs₃ := by
    refine (migrateBytes_new_iff hwf₁ hdat (by decide) hdi).mpr ?_
    rw [hlen, hroom]
    decide
  have hmigrate : migrate fs (some twoChunks.flatten) pathA = .ok fs₃ := by
    rw [migrate, hlookup, ok_bind, if_neg (not_not_intro rfl), hmknod, ok_bind,
      if_neg (Nat.succ_ne_zero 1)]
    exact hbytes
  obtain ⟨htransfer, hcopy⟩ := file_transfer hreach
  obtain ⟨hread, hload⟩ := htransfer _ _ twoChunks fs₁ fs₂ hmknod (by decide)
    (fun d hd => by rw [hsizes d hd]; decide) hchunks
  rw [hlen] at hload
  exact ⟨fs, fs₁, fs₂, fs₃, hreach, hmknod, hchunks, hread, hload, hmigrate,
    hcopy pathA _ fs₃ fittingPath_pathA ⟨_, hlookup, rfl⟩ hmigrate⟩

end Hobby386
