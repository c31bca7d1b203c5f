import Hobby386.Fs.MknodRoom
import Hobby386.Fs.WriteRoom
import Hobby386.Mkfs.Migrate

/-!
# The room a migrated file needs

`do_migrate` writes byte after byte, and a write that stores nothing ends in `panic()`. Whether all bytes
can be stored is known before the first one: the file must not be too large, and there must be a free
block for every data block and every indirect block of it.
-/

namespace Hobby386

open PointerForest

variable {fs fs' : Fs} {inum : ℕ} {D : List UInt8}

/-! ## The blocks of a file -/

/-- The number of blocks of a file of `len` bytes: its data blocks, the singly-indirect blocks of
the inode, and the doubly-indirect block with the indirect blocks below it. -/
def blocksFor (len : ℕ) : ℕ :=
  let data := (len + 511) / 512
  data + min 2 ((data - 10 + 127) / 128) + if data ≤ 266 then 0 else 1 + (data - 266 + 127) / 128

section Count

variable {d : ℕ → Block} {e B : ℕ}

/-- A row of null pointers to data needs one block for each position up to the end of the range. -/
theorem length_need_row_zero (m : ℕ) :
    (need Block.ptrs 128 d 0 e (row 0 (List.replicate m 0)) B).length = min m (e + 1 - B) := by
  induction m generalizing B with
  | zero => simp
  | succ m ih =>
    rw [List.replicate_succ, row_cons, need_split, List.length_append, ih,
      show B + 128 ^ (0, 0).1 = B + 1 from rfl]
    rcases Nat.lt_or_ge e B with hout | hin
    · rw [need_of_lt hout, List.length_nil]
      omega
    · rw [need_leaf ⟨hin, Nat.succ_pos B⟩, if_pos rfl, List.length_singleton]
      omega

/-- A null pointer to a singly-indirect block. -/
theorem length_need_single :
    (need Block.ptrs 128 d 0 e [(1, 0)] B).length = if B ≤ e then 1 + min 128 (e + 1 - B) else 0 := by
  split
  · rename_i hin
    rw [need_node ⟨hin, Nat.add_pos_right B (by decide)⟩, if_pos rfl, if_pos rfl, List.length_append,
      length_need_row_zero, List.length_singleton]
  · rename_i hout
    rw [need_of_lt (Nat.not_le.mp hout), List.length_nil]

/-- A row of null pointers to singly-indirect blocks. -/
theorem length_need_row_one (m : ℕ) : (need Block.ptrs 128 d 0 e (row 1 (List.replicate m 0)) B).length =
    min m ((e + 1 - B + 127) / 128) + min (128 * m) (e + 1 - B) := by
  induction m generalizing B with
  | zero => simp
  | succ m ih =>
    rw [List.replicate_succ, row_cons, need_split, List.length_append, ih, length_need_single,
      show B + 128 ^ (1, 0).1 = B + 128 from rfl]
    split <;> omega

/-- A null pointer to a doubly-indirect block. -/
theorem length_need_double : (need Block.ptrs 128 d 0 e [(2, 0)] B).length =
    if B ≤ e then 1 + (min 128 ((e + 1 - B + 127) / 128) + min 16384 (e + 1 - B)) else 0 := by
  split
  · rename_i hin
    rw [need_node ⟨hin, Nat.add_pos_right B (by decide)⟩, if_pos rfl, if_pos rfl, List.length_append,
      length_need_row_one, List.length_singleton]
  · rename_i hout
    rw [need_of_lt (Nat.not_le.mp hout), List.length_nil]

/-- An inode without pointers needs the blocks of a file that ends at byte `len`. -/
theorem length_nulls_bare (hbare : (fs.dinode inum).Bare) {len : ℕ} (hpos : 0 < len)
    (hlen : len ≤ maxBytes) :
    (fs.nulls inum ((len - 1) / 512)).length = blocksFor len := by
  have hforest : (fs.dinode inum).forest =
      row 0 (List.replicate 10 0) ++ ([(1, 0)] ++ ([(1, 0)] ++ [(2, 0)])) := by
    rw [hbare.forest]
    rfl
  have hdata : (len + 511) / 512 = (len - 1) / 512 + 1 := by omega
  have hlast : (len - 1) / 512 < maxBlocks := by
    simp only [maxBytes, maxBlocks] at hlen ⊢
    omega
  rw [blocksFor, hdata]
  generalize (len - 1) / 512 = e at hlast ⊢
  simp only [Fs.nulls, nptrsPerBlock, hforest, need_append, List.length_append, length_need_row_zero,
    length_need_single, length_need_double, width_row, List.length_replicate, width_cons, width_nil,
    maxBlocks, Nat.reducePow, Nat.reduceMul, Nat.reduceAdd, Nat.zero_add, Nat.add_zero,
    Nat.sub_zero] at hlast ⊢
  split <;> split <;> split <;> split <;> omega

end Count

/-! ## The copying loop -/

/-- A shorter part of a file needs no more room. -/
theorem Fs.Room.mono {b b' : ℕ} (h : fs.Room inum b) (hb : b' ≤ b) : fs.Room inum b' := by
  have hnodup : (fs.nulls inum b').Nodup := need_nodup (by decide) Block.ptrs_length
  have hsub : fs.nulls inum b' ⊆ fs.nulls inum b := need_subset (by decide) Block.ptrs_length le_rfl hb
  exact (hnodup.subperm hsub).length_le.trans h

/-- The next byte of a file can be stored exactly when there is room for the file with its block. -/
theorem Holds.storesFirst_iff (h : Holds fs inum D) : fs.StoresFirst inum 1 D.length ↔
    D.length < maxBytes ∧ fs.Room inum (D.length / 512) := by
  have hmapped (k : ℕ) (hk : k < D.length / 512) : fs.fileBlock inum k ≠ 0 := by
    have hmap := h.stored.mapped (512 * k) (Nat.zero_le _) (by omega)
    rwa [Nat.mul_div_cancel_left k (by decide)] at hmap
  rw [room_iff_pathNulls hmapped, Fs.StoresFirst]
  exact and_iff_right (by decide)

/-- A chunk written to the end of a file: where the write stops, and that the room for the rest
stays what it was. -/
theorem Holds.writeChunk (h : Holds fs inum D) (hwf : WellFormed fs) (hdat : fs.su.nblockDat ≤ 4096)
    {d : List UInt8} (hlen : d.length ≤ 0x7fffffff) :
    ∃ B fs', fsWrite fs inum (.ofList d) d.length D.length =
        .ok (((writeRequest (.ofList d) d.length D.length).done B : ℕ), fs') ∧
      StoppedAt fs inum (writeRequest (.ofList d) d.length D.length) B fs' ∧
      ((writeRequest (.ofList d) d.length D.length).done B = d.length → Holds fs' inum (D ++ d)) ∧
      WellFormed fs' ∧ fs'.su = fs.su ∧
      ∀ b, (D.length + d.length) / 512 ≤ b → (fs'.Room inum b ↔ fs.Room inum b) := by
  have hmax := h.length_le
  simp only [maxBytes, maxBlocks] at hmax
  have halloc := allocated_of_reg h.stored.reg h.stored.inum_lt hwf
  have hbits : bits32 (d.length : ℤ) = d.length := bits32_of_nonneg (Int.natCast_nonneg _) (by omega)
  have hsz : bits32 (d.length : ℤ) ≤ 0xefffffff := by omega
  obtain ⟨⟨ret, fs'⟩, hrun⟩ := fsWrite_returns hdat inum (.ofList d) d.length D.length
  have hkept {height k : ℕ} (hne : fs.pathBlock inum height k ≠ 0) :
      fs'.pathBlock inum height k = fs.pathBlock inum height k :=
    fsWrite_keepsNodes hwf halloc hsz (by omega) hrun hne
  obtain ⟨B, rfl, hwritten, hstopped⟩ := fsWrite_stoppedAt hwf halloc hsz (by omega) hrun rfl
  rw [hbits] at hrun hwritten hstopped
  refine ⟨B, fs', hrun, hstopped, fun hfull => ?_, hwritten.wellFormed hwf halloc, hwritten.su_eq,
    fun b hb => ?_⟩
  · rw [hfull] at hwritten
    exact h.append hwritten
  · refine room_written hwf hwritten hstopped (fun height k hne => ?_) ?_
    · rw [hkept hne]
      exact hne
    · have heblock : (writeRequest (.ofList d) d.length D.length).eblock =
          u32 (D.length + d.length) / 512 := rfl
      rwa [heblock, u32_of_lt (by omega)]

/-- One byte written to the end of a file: it is stored if there is room for it, and the room for
the rest stays what it was. -/
theorem Holds.writeByte (h : Holds fs inum D) (hwf : WellFormed fs) (hdat : fs.su.nblockDat ≤ 4096)
    (c : UInt8) :
    ∃ r, fsWrite fs inum (.ofList [c]) 1 D.length = .ok r ∧
      (r.1 = 1 ↔ D.length < maxBytes ∧ fs.Room inum (D.length / 512)) ∧
      (r.1 = 1 → Holds r.2 inum (D ++ [c])) ∧ WellFormed r.2 ∧ r.2.su = fs.su ∧
      ∀ b, (D.length + 1) / 512 ≤ b → (r.2.Room inum b ↔ fs.Room inum b) := by
  obtain ⟨B, fs', hrun, hstopped, hholds, hwf', hsu, hroom⟩ :=
    h.writeChunk hwf hdat (d := [c]) (show 1 ≤ 0x7fffffff by decide)
  have hdone : (writeRequest (.ofList [c]) 1 D.length).done B ≤ 1 := Nat.min_le_left _ _
  have hfirst := done_pos_iff (show 1 ≤ 0xefffffff by decide) hstopped
  refine ⟨(_, fs'), hrun, ?_, fun hone => hholds (Int.ofNat_inj.mp hone), hwf', hsu, hroom⟩
  rw [← h.storesFirst_iff]
  refine Iff.trans ?_ hfirst
  simp only [List.length_singleton]
  omega

/-- Chunks that are not too large, with room for them, are written in full one behind the other. -/
theorem Holds.writeChunks_returns (h : Holds fs inum D) (hwf : WellFormed fs)
    (hdat : fs.su.nblockDat ≤ 4096) {chunks : List (List UInt8)} (hpos : ∀ d ∈ chunks, 0 < d.length)
    (hend : D.length + chunks.flatten.length ≤ maxBytes)
    (hroom : fs.Room inum ((D.length + chunks.flatten.length) / 512)) :
    ∃ fs', Hobby386.writeChunks inum D.length chunks fs = .ok (true, fs') := by
  induction chunks generalizing fs D with
  | nil => exact ⟨fs, rfl⟩
  | cons d chunks ih =>
    rw [List.flatten_cons, List.length_append, ← Nat.add_assoc] at hend hroom
    have hsmall := hend
    simp only [maxBytes, maxBlocks] at hsmall
    have hd := hpos d List.mem_cons_self
    obtain ⟨B, fs₁, hrun, hstopped, hholds, hwf₁, hsu, hkept⟩ :=
      h.writeChunk hwf hdat (show d.length ≤ 0x7fffffff by omega)
    have hfull : (writeRequest (.ofList d) d.length D.length).done B = d.length := by
      refine (done_eq_iff hd hstopped).mpr ⟨by omega, ?_⟩
      have hfits := hroom.mono (show (D.length + d.length - 1) / 512 ≤ _ by omega)
      rw [Fs.neededNulls, if_neg (by omega)]
      refine le_trans (List.Subperm.length_le
        ((need_nodup (by decide) Block.ptrs_length).subperm ?_)) hfits
      exact need_subset (by decide) Block.ptrs_length (Nat.zero_le _) le_rfl
    rw [hfull] at hrun
    rw [Hobby386.writeChunks, hrun, ok_bind, if_pos rfl, u32_of_lt (by omega), ← List.length_append]
    refine ih (hholds hfull) hwf₁ (by rw [hsu]; exact hdat)
      (fun d' hd' => hpos d' (List.mem_cons_of_mem _ hd')) ?_ ?_
    · rw [List.length_append]
      exact hend
    · rw [List.length_append, hkept _ (by omega)]
      exact hroom

/-- The bytes of a host file can be appended to a file exactly when the whole is not too large and
there is room for it. -/
theorem Holds.migrateBytes_iff (h : Holds fs inum D) (hwf : WellFormed fs)
    (hdat : fs.su.nblockDat ≤ 4096) {rest : List UInt8} :
    (∃ fs', migrateBytes inum D.length rest fs = .ok fs') ↔
      rest = [] ∨ D.length + rest.length ≤ maxBytes ∧
      fs.Room inum ((D.length + rest.length - 1) / 512) := by
  induction rest generalizing fs D with
  | nil => exact iff_of_true ⟨fs, rfl⟩ (.inl rfl)
  | cons c rest ih =>
    obtain ⟨⟨ret, fs₁⟩, hrun, hone, hholds, hwf₁, hsu, hroom⟩ := h.writeByte hwf hdat c
    dsimp only at hone hholds hwf₁ hsu hroom
    rw [migrateBytes, hrun, ok_bind]
    dsimp only
    by_cases hret : ret = 1
    · obtain ⟨hin, hnext⟩ := hone.mp hret
      have hmax := h.length_le
      simp only [maxBytes, maxBlocks] at hin hmax
      have hih := ih (hholds hret) hwf₁ (by rw [hsu]; exact hdat)
      rw [List.length_append, List.length_singleton] at hih
      rw [if_neg (not_not_intro hret), u32_of_lt (by omega), hih]
      cases rest with
      | nil =>
        refine iff_of_true (.inl rfl) (.inr ⟨?_, ?_⟩)
        · simp only [List.length_singleton, maxBytes, maxBlocks]
          omega
        · rw [List.length_singleton, Nat.add_sub_cancel]
          exact hnext
      | cons d rest =>
        simp only [List.length_cons, reduceCtorEq, false_or]
        rw [show D.length + 1 + (rest.length + 1) = D.length + (rest.length + 1 + 1) by omega,
          hroom _ (by omega)]
    · rw [if_pos hret]
      refine iff_of_false (fun hex => ?_) (fun hcond => ?_)
      · obtain ⟨_, hex⟩ := hex
        cases hex
      · obtain ⟨hlen, hroom'⟩ := hcond.resolve_left (List.cons_ne_nil c rest)
        rw [List.length_cons] at hlen hroom'
        exact hret (hone.mpr ⟨by omega, hroom'.mono (by omega)⟩)

/-- The file after the copying loop. -/
theorem Holds.migrateBytes {rest : List UInt8} (h : Holds fs inum D) (hwf : WellFormed fs)
    (hdat : fs.su.nblockDat ≤ 4096) (hrun : Hobby386.migrateBytes inum D.length rest fs = .ok fs') :
    Holds fs' inum (D ++ rest) ∧ fs'.su = fs.su := by
  induction rest generalizing fs D with
  | nil =>
    cases hrun
    rw [List.append_nil]
    exact ⟨h, rfl⟩
  | cons c rest ih =>
    obtain ⟨⟨ret, fs₁⟩, hwrite, hone, hholds, hwf₁, hsu, -⟩ := h.writeByte hwf hdat c
    rw [Hobby386.migrateBytes, hwrite, ok_bind] at hrun
    dsimp only at hone hholds hwf₁ hsu hrun
    split at hrun
    · cases hrun
    · rename_i hfull
      have hret := not_not.mp hfull
      have hin := (hone.mp hret).1
      simp only [maxBytes, maxBlocks] at hin
      have h₁ := hholds hret
      have hlen : u32 (D.length + 1) = (D ++ [c]).length := by
        rw [u32_of_lt (by omega), List.length_append, List.length_singleton]
      rw [hlen] at hrun
      have hih := ih h₁ hwf₁ (by rw [hsu]; exact hdat) hrun
      rwa [List.append_assoc, List.singleton_append, hsu] at hih

/-- A host file can be copied to a new inode exactly when it is not too large and there are free
blocks for it. -/
theorem migrateBytes_new_iff (hwf : WellFormed fs) (hdat : fs.su.nblockDat ≤ 4096) (hinum : inum < 200)
    (hnew : fs.dinode inum = { Dinode.zero with type := tReg, linkcnt := 1 }) :
    (∃ fs', migrateBytes inum 0 D fs = .ok fs') ↔
      D.length ≤ maxBytes ∧ blocksFor D.length ≤ (freeBlocks fs.su fs.disk).length := by
  have hbare : (fs.dinode inum).Bare := by
    rw [hnew]
    rfl
  have hiff : (∃ fs', migrateBytes inum ([] : List UInt8).length D fs = .ok fs') ↔ _ :=
    (holds_nil hinum hnew).migrateBytes_iff hwf hdat
  rw [List.length_nil, Nat.zero_add] at hiff
  refine hiff.trans ?_
  rcases List.eq_nil_or_concat D with rfl | ⟨init, c, rfl⟩
  · exact iff_of_true (.inl rfl) ⟨Nat.zero_le _, Nat.zero_le _⟩
  · have hpos : 0 < (init.concat c).length := by simp
    refine (or_iff_right (List.length_pos_iff.mp hpos)).trans (and_congr_right fun hlen => ?_)
    rw [Fs.Room, length_nulls_bare hbare hpos hlen]

/-- The null pointers on the way to the next entry of the directory `n`, and to the byte behind it. -/
def Fs.entryNulls (fs : Fs) (n : ℕ) : List (ℕ × ℕ) :=
  fs.need n (writeRequest (fun _ => 0) 16 (fs.dinode n).size)

/-- The number of free blocks behind the creation of an inode. -/
theorem LinkEffect.length_free {type n x m : ℕ} {name : CString}
    (h : LinkEffect fs type n name x 16 m fs') (hwf : WellFormed fs) (hn : n < 200)
    (hdir : (fs.dinode n).type = tDir) (hx : x < 200) (hfree : (fs.dinode x).type = 0) :
    (freeBlocks fs'.su fs'.disk).length =
      (freeBlocks fs.su fs.disk).length - (fs.entryNulls n).length := by
  have hneed := need_newInode hwf hn hdir hx hfree { Dinode.zero with type := type }
  rw [h.su_eq, h.free, List.length_drop, Fs.need, hneed]
  rfl

end Hobby386
