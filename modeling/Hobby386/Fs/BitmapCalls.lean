import Hobby386.Lib.Runs
import Hobby386.Fs.Format

/-!
# Sequences of bitmap calls

`bitmap_alloc` and `bitmap_free` as the two operations of an allocator, over any superblock and any
bitmap. The last blocks of an area that is no multiple of eight blocks are never handed out, and what
is handed out can be given back only if the data area starts with block 0.
-/

namespace Hobby386

open Runs

variable {fs fs' : Fs}

/-- Bit `k` of the mounted bitmap. -/
def Fs.bit (fs : Fs) (k : ℕ) : Bool := (fs.disk fs.su.sbitmap).bit k

/-! ## What the allocator hands out -/

/-- The effect of setting bit `k`: only the bitmap block is written, and no other bit changes. -/
def SetsBit (fs fs' : Fs) (k : ℕ) : Prop :=
  ∃ b, fs' = fs.diskWrite fs.su.sbitmap b ∧ ∀ j, b.bit j = (fs.bit j || decide (j = k))

/-- The result 0 means that the data area is full. Any other result is the block of a clear bit, which is
set. -/
def UsesArea (fs : Fs) (r : ℕ × Fs) : Prop :=
  (r.1 = 0 → ∀ k < fs.su.nblockDat, fs.bit k = true) ∧
  (r.1 ≠ 0 → ∃ k < fs.su.nblockDat, fs.bit k = false ∧ r.1 = u32 (fs.su.sdata + k) ∧ SetsBit fs r.2 k)

/-- The results of `n` successive calls of `bitmap_alloc`. -/
def allocBlocks : (n : ℕ) → Fs → Except Fault (List ℕ × Fs)
  | 0, fs => .ok ([], fs)
  | n + 1, fs => do
    let r ← bitmapAlloc fs
    let rs ← allocBlocks n r.2
    .ok (r.1 :: rs.1, rs.2)

/-- As many calls succeed as the data area has blocks, with distinct results, and the next call fails. -/
def AllocatesAll (fs : Fs) : Prop :=
  ∃ rs fs' fs'', allocBlocks fs.su.nblockDat fs = .ok (rs, fs') ∧ 0 ∉ rs ∧ rs.Nodup ∧
    bitmapAlloc fs' = .ok (0, fs'')

/-- Taking a block keeps the superblock. -/
theorem TakesBlock.su_eq {q : ℕ} (h : TakesBlock fs fs' q) : fs'.su = fs.su := by
  obtain ⟨b, rfl⟩ := h.write
  rfl

/-- The block taken is that of the first clear bit in the whole bytes of the bitmap. -/
theorem TakesBlock.first_clear {q : ℕ} (h : TakesBlock fs fs' q) :
    ∃ k < 8 * min (fs.su.nblockDat / 8) 512, q = fs.su.sdata + k ∧ fs.bit k = false ∧
      (∀ j < k, fs.bit j = true) ∧ SetsBit fs fs' k := by
  have hfree := h.free
  rw [freeBlocks] at hfree
  obtain ⟨k, rest, hbits, rfl, -⟩ := List.map_eq_cons_iff.mp hfree
  obtain ⟨hk, hclear, hleast⟩ := FirstFit.of_free_eq_cons hbits
  obtain ⟨b, hb⟩ := h.write
  refine ⟨k, hk, rfl, hclear, hleast, b, hb, fun j => ?_⟩
  have hmarked := h.marked (fs.su.sdata + j) (Nat.le_add_right _ _)
  rw [Hobby386.marked, Hobby386.marked, Nat.add_sub_cancel_left, hb, Fs.diskWrite_disk_self] at hmarked
  rw [hmarked, Fs.bit]
  congr 1
  apply decide_eq_decide.mpr
  omega

/-- Without a free block all bits of whole bytes are set. -/
theorem bit_of_freeBlocks_nil (h : freeBlocks fs.su fs.disk = []) (hdat : fs.su.nblockDat ≤ 4096) :
    ∀ k < 8 * (fs.su.nblockDat / 8), fs.bit k = true := by
  intro k hk
  rw [freeBlocks, List.map_eq_nil_iff] at h
  by_contra hclear
  have hmem : k ∈ FirstFit.free (fs.disk fs.su.sbitmap).bit (8 * min (fs.su.nblockDat / 8) 512) :=
    FirstFit.mem_free.mpr ⟨by omega, Bool.not_eq_true _ ▸ hclear⟩
  rw [h] at hmem
  exact absurd hmem List.not_mem_nil

/-- A call does what is asked of it if the area is full, or if it comes to a clear bit in a whole
byte of the bitmap whose block number is not 0. -/
theorem usesArea_iff (hdat : fs.su.nblockDat ≤ 4096) :
    (∃ r, bitmapAlloc fs = .ok r ∧ UsesArea fs r) ↔
      (∀ k < fs.su.nblockDat, fs.bit k = true) ∨
      ∃ k < 8 * (fs.su.nblockDat / 8), fs.bit k = false ∧ (∀ j < k, fs.bit j = true) ∧
        u32 (fs.su.sdata + k) ≠ 0 := by
  obtain ⟨⟨n, fs'⟩, hcall⟩ := bitmapAlloc_returns hdat
  have hexists : (∃ r, bitmapAlloc fs = .ok r ∧ UsesArea fs r) ↔ UsesArea fs (n, fs') := by
    rw [hcall]
    constructor
    · rintro ⟨r, hr, harea⟩
      cases hr
      exact harea
    · intro harea
      exact ⟨_, rfl, harea⟩
  rw [hexists]
  rcases bitmapAlloc_takes hcall with ⟨rfl, -, hempty⟩ | ⟨q, rfl, htakes⟩
  · have hfull := bit_of_freeBlocks_nil hempty hdat
    constructor
    · intro harea
      exact .inl (harea.1 rfl)
    · rintro (hall | ⟨k, hk, hclear, -⟩)
      · exact ⟨fun _ => hall, fun h => absurd rfl h⟩
      · rw [hfull k hk] at hclear
        exact absurd hclear (by decide)
  · obtain ⟨k, hk, rfl, hclear, hleast, hsets⟩ := htakes.first_clear
    have hlt : k < fs.su.nblockDat := by omega
    have hnot : ¬∀ k < fs.su.nblockDat, fs.bit k = true := by
      intro hall
      rw [hall k hlt] at hclear
      exact absurd hclear (by decide)
    constructor
    · intro harea
      exact .inr ⟨k, by omega, hclear, hleast, fun h0 => hnot (harea.1 h0)⟩
    · rintro (hall | ⟨i, hi, hclear', hleast', hne⟩)
      · exact absurd hall hnot
      · obtain rfl : i = k := by
          rcases Nat.lt_trichotomy i k with hlt' | heq | hgt
          · rw [hleast i hlt'] at hclear'
            exact absurd hclear' (by decide)
          · exact heq
          · rw [hleast' k hgt] at hclear
            exact absurd hclear (by decide)
        exact ⟨fun h0 => absurd h0 hne, fun _ => ⟨i, hlt, hclear, rfl, hsets⟩⟩

/-- Successive calls hand out the free list in order, and then nothing. -/
theorem allocBlocks_eq (hdat : fs.su.nblockDat ≤ 4096) (n : ℕ) :
    ∃ fs', allocBlocks n fs = .ok (((freeBlocks fs.su fs.disk).take n).map u32 ++
        List.replicate (n - (freeBlocks fs.su fs.disk).length) 0, fs') ∧
      fs'.su = fs.su ∧ freeBlocks fs.su fs'.disk = (freeBlocks fs.su fs.disk).drop n := by
  induction n generalizing fs with
  | zero => exact ⟨fs, by simp [allocBlocks], rfl, rfl⟩
  | succ n ih =>
    obtain ⟨⟨m, fs₁⟩, hcall⟩ := bitmapAlloc_returns hdat
    rw [allocBlocks, hcall, ok_bind]
    rcases bitmapAlloc_takes hcall with ⟨rfl, rfl, hempty⟩ | ⟨q, rfl, htakes⟩
    · obtain ⟨fs', hrest, hsu, hfree⟩ := ih hdat
      refine ⟨fs', ?_, hsu, ?_⟩
      · dsimp only
        rw [hrest, ok_bind, hempty, List.take_nil, List.take_nil, List.length_nil, Nat.sub_zero,
          Nat.sub_zero, List.replicate_succ, List.map_nil, List.nil_append, List.nil_append]
      · rw [hfree, hempty, List.drop_nil, List.drop_nil]
    · have hsu₁ := htakes.su_eq
      obtain ⟨fs', hrest, hsu, hfree⟩ := @ih fs₁ (by rwa [hsu₁])
      rw [hsu₁] at hrest hfree
      refine ⟨fs', ?_, hsu.trans hsu₁, ?_⟩
      · dsimp only
        rw [hrest, ok_bind, htakes.free, List.take_succ_cons, List.map_cons, List.cons_append,
          List.length_cons, Nat.add_sub_add_right]
      · rw [hfree, htakes.free, List.drop_succ_cons]

/-- Block numbers of a small area are distinct, also when they wrap around. -/
theorem nodup_blockNumbers (s : ℕ) {n : ℕ} (hn : n ≤ 4096) :
    ((List.range n).map fun k => u32 (s + k)).Nodup := by
  apply List.Nodup.map_on _ List.nodup_range
  intro i hi j hj h
  rw [List.mem_range] at hi hj
  simp only [u32] at h
  omega

/-- From an empty bitmap on, all blocks are handed out if their number is a multiple of eight and
none of them has the number 0. -/
theorem allocatesAll_iff (hdat : fs.su.nblockDat ≤ 4096)
    (hempty : ∀ k < fs.su.nblockDat, fs.bit k = false) :
    AllocatesAll fs ↔ fs.su.nblockDat % 8 = 0 ∧ ∀ k < fs.su.nblockDat, u32 (fs.su.sdata + k) ≠ 0 := by
  set nd := fs.su.nblockDat with hnd
  have hfree : freeBlocks fs.su fs.disk = (List.range (8 * (nd / 8))).map (fs.su.sdata + ·) := by
    rw [freeBlocks, ← hnd, Nat.min_eq_left (by omega)]
    exact congrArg _ (FirstFit.free_eq_range fun k hk => hempty k (by omega))
  obtain ⟨fs', hcalls, hsu, hrest⟩ := allocBlocks_eq hdat nd
  have hlen : (freeBlocks fs.su fs.disk).length = 8 * (nd / 8) := by rw [hfree]; simp
  have hresults : allocBlocks nd fs =
      .ok ((List.range (8 * (nd / 8))).map (fun k => u32 (fs.su.sdata + k)) ++ List.replicate (nd % 8) 0,
        fs') := by
    rw [hcalls, List.take_of_length_le (by omega), hlen, hfree, List.map_map,
      show nd - 8 * (nd / 8) = nd % 8 by omega]
    rfl
  have hdone : ∃ fs'', bitmapAlloc fs' = .ok (0, fs'') := by
    obtain ⟨⟨m, fs''⟩, hcall⟩ := @bitmapAlloc_returns fs' (by rwa [hsu])
    rcases bitmapAlloc_takes hcall with ⟨rfl, -⟩ | ⟨q, rfl, htakes⟩
    · exact ⟨_, hcall⟩
    · have hcons := htakes.free
      rw [hsu, hrest, List.drop_of_length_le (by omega)] at hcons
      exact absurd hcons.symm (List.cons_ne_nil _ _)
  constructor
  · rintro ⟨rs, fs₁, fs₂, hrs, hzero, -, -⟩
    rw [← hnd, hresults] at hrs
    cases hrs
    rw [List.mem_append, not_or] at hzero
    have hmod : nd % 8 = 0 := by
      by_contra hne
      exact hzero.2 (List.mem_replicate.mpr ⟨hne, rfl⟩)
    refine ⟨hmod, fun k hk h0 => hzero.1 (List.mem_map.mpr ⟨k, List.mem_range.mpr (by omega), h0⟩)⟩
  · rintro ⟨hmod, hne⟩
    obtain ⟨fs'', hlast⟩ := hdone
    rw [hmod, List.replicate_zero, List.append_nil] at hresults
    refine ⟨_, fs', fs'', hresults, ?_, nodup_blockNumbers _ (by omega), hlast⟩
    intro hmem
    obtain ⟨k, hk, h0⟩ := List.mem_map.mp hmem
    exact hne k (by rw [List.mem_range] at hk; omega) h0

/-- When `bitmap_alloc` makes use of the whole data area: in one call on any bitmap, and in
successive calls on an empty one. -/
theorem bitmapAlloc_whole_iff (hdat : fs.su.nblockDat ≤ 4096) :
    ((∃ r, bitmapAlloc fs = .ok r ∧ UsesArea fs r) ↔
      (∀ k < fs.su.nblockDat, fs.bit k = true) ∨
      ∃ k < 8 * (fs.su.nblockDat / 8), fs.bit k = false ∧ (∀ j < k, fs.bit j = true) ∧
        u32 (fs.su.sdata + k) ≠ 0) ∧
    ((∀ k < fs.su.nblockDat, fs.bit k = false) →
      (AllocatesAll fs ↔ fs.su.nblockDat % 8 = 0 ∧ ∀ k < fs.su.nblockDat, u32 (fs.su.sdata + k) ≠ 0)) :=
  ⟨usesArea_iff hdat, allocatesAll_iff hdat⟩

/-- A file system with a data area of one block and nothing in use. -/
def tinyArea : Fs where
  init := true
  su := newSuper ⟨0, 58⟩
  disk := fun _ => .zero
  printed := []

/-- The only block of this area is free and never handed out. -/
theorem bitmapAlloc_tinyArea : tinyArea.su.nblockDat = 1 ∧ tinyArea.bit 0 = false ∧
    bitmapAlloc tinyArea = .ok (0, tinyArea) ∧ ¬UsesArea tinyArea (0, tinyArea) ∧
    ¬AllocatesAll tinyArea := by
  have hclear : tinyArea.bit 0 = false := by decide
  have hcall : bitmapAlloc tinyArea = .ok (0, tinyArea) := rfl
  refine ⟨rfl, hclear, hcall, fun harea => ?_, ?_⟩
  · rw [harea.1 rfl 0 (by decide)] at hclear
    exact absurd hclear (by decide)
  · rintro ⟨rs, fs', fs'', hrs, hzero, -⟩
    rw [show tinyArea.su.nblockDat = 0 + 1 from rfl, allocBlocks, hcall, ok_bind] at hrs
    cases hrs
    exact hzero List.mem_cons_self

/-- The condition for this area. -/
theorem bitmapAlloc_whole_iff_tinyArea :
    ((∃ r, bitmapAlloc tinyArea = .ok r ∧ UsesArea tinyArea r) ↔
      (∀ k < tinyArea.su.nblockDat, tinyArea.bit k = true) ∨
      ∃ k < 8 * (tinyArea.su.nblockDat / 8), tinyArea.bit k = false ∧ (∀ j < k, tinyArea.bit j = true) ∧
        u32 (tinyArea.su.sdata + k) ≠ 0) ∧
    ((∀ k < tinyArea.su.nblockDat, tinyArea.bit k = false) →
      (AllocatesAll tinyArea ↔ tinyArea.su.nblockDat % 8 = 0 ∧
        ∀ k < tinyArea.su.nblockDat, u32 (tinyArea.su.sdata + k) ≠ 0)) :=
  bitmapAlloc_whole_iff (by decide)

/-! ## What can be given back -/

/-- A call of one of the two functions. -/
inductive BitmapCall
  | alloc
  | free (n : ℕ)

/-- Making a call: its return value and the new state. -/
def BitmapCall.exec : BitmapCall → Fs → Except Fault (ℤ × Fs)
  | .alloc, fs => do
    let r ← bitmapAlloc fs
    .ok (r.1, r.2)
  | .free n, fs => do
    let r ← bitmapFree fs n
    .ok (if r.1 then 0 else -1, r.2)

/-- Block numbers are 32-bit numbers. -/
def BitmapCall.Proper : BitmapCall → Prop
  | .alloc => True
  | .free n => n < 4294967296

/-- Runs of the two functions. -/
abbrev BitmapRun : Fs → List (BitmapCall × ℤ) → Fs → Prop := Run BitmapCall.exec fun _ _ c => c.Proper

/-- Block `n` is in use: it is the block of a bit that is set. -/
def Fs.InUse (fs : Fs) (n : ℕ) : Prop :=
  ∃ k < fs.su.nblockDat, n = u32 (fs.su.sdata + k) ∧ fs.bit k = true

/-- Blocks in use can be freed. For all other numbers `bitmap_free` returns -1 and changes nothing. -/
def FreesInUse (fs : Fs) : Prop :=
  ∀ n < 4294967296, ∃ r, bitmapFree fs n = .ok r ∧ (r.1 = true ↔ fs.InUse n) ∧ (r.1 = false → r.2 = fs)

/-- Freeing the block just allocated restores the bitmap. -/
def UndoesAlloc (fs : Fs) : Prop :=
  ∀ n fs₁, bitmapAlloc fs = .ok (n, fs₁) → n ≠ 0 →
    ∃ fs₂, bitmapFree fs₁ n = .ok (true, fs₂) ∧ fs₂.disk fs.su.sbitmap = fs.disk fs.su.sbitmap

variable {t : List (BitmapCall × ℤ)}

/-- Clearing a bit keeps the superblock. -/
theorem ClearsBit.su_eq {n : ℕ} (h : ClearsBit fs fs' n) : fs'.su = fs.su := by
  obtain ⟨b, rfl, -⟩ := h
  rfl

/-- The bits after one has been cleared. -/
theorem ClearsBit.bit_eq {n : ℕ} (h : ClearsBit fs fs' n) (k : ℕ) :
    fs'.bit k = (fs.bit k && decide (k ≠ n)) := by
  obtain ⟨b, rfl, hb⟩ := h
  rw [Fs.bit, Fs.diskWrite_su, Fs.diskWrite_disk_self, hb, Fs.bit]

/-- The bits after one has been set. -/
theorem SetsBit.bit_eq {n : ℕ} (h : SetsBit fs fs' n) (k : ℕ) :
    fs'.bit k = (fs.bit k || decide (k = n)) := by
  obtain ⟨b, rfl, hb⟩ := h
  rw [Fs.bit, Fs.diskWrite_su, Fs.diskWrite_disk_self, hb]

/-- No call changes the superblock. -/
theorem BitmapCall.su_eq {c : BitmapCall} {ret : ℤ} (h : c.exec fs = .ok (ret, fs')) :
    fs'.su = fs.su := by
  cases c with
  | alloc =>
    rw [BitmapCall.exec, bind_eq_ok] at h
    obtain ⟨r, hcall, h⟩ := h
    cases h
    rcases bitmapAlloc_takes hcall with ⟨-, hsame, -⟩ | ⟨q, -, htakes⟩
    · rw [hsame]
    · exact htakes.su_eq
  | free n =>
    rw [BitmapCall.exec, bind_eq_ok] at h
    obtain ⟨r, hcall, h⟩ := h
    cases h
    rcases bitmapFree_cases hcall with ⟨-, hsame, -⟩ | ⟨-, -, -, hclears⟩
    · rw [hsame]
    · exact hclears.su_eq

/-- A run of bitmap calls keeps the superblock. -/
theorem BitmapRun.su_eq (h : BitmapRun fs t fs') : fs'.su = fs.su :=
  h.preserves (I := fun fs₁ => fs₁.su = fs.su)
    (fun _ _ _ _ _ hs _ hexec => (BitmapCall.su_eq hexec).trans hs) rfl

/-- A run goes on with an allocation. -/
theorem BitmapRun.alloc {fs₁ : Fs} {n : ℕ} (h : BitmapRun fs t fs₁)
    (hcall : bitmapAlloc fs₁ = .ok (n, fs')) : BitmapRun fs (t ++ [(.alloc, (n : ℤ))]) fs' :=
  h.call trivial (by rw [BitmapCall.exec, hcall, ok_bind])

/-- A run goes on with a release. -/
theorem BitmapRun.free {fs₁ : Fs} {n : ℕ} (h : BitmapRun fs t fs₁) (hn : n < 4294967296)
    (hcall : bitmapFree fs₁ n = .ok (true, fs')) : BitmapRun fs (t ++ [(.free n, 0)]) fs' :=
  h.call hn (by rw [BitmapCall.exec, hcall, ok_bind, if_pos rfl])

/-! ### A data area that starts with block 0 -/

/-- With a data area from block 0 on, a block in use is freed by clearing its bit. -/
theorem freesInUse_of_zero (hzero : fs.su.sdata = 0) (hdat : fs.su.nblockDat ≤ 4096) :
    FreesInUse fs := by
  have hrange (n : ℕ) : fs.su.Freeable n ↔ n < fs.su.nblockDat := by
    rw [Superblock.Freeable, hzero, Nat.zero_add, u32_of_lt (by omega)]
    exact and_iff_right (Nat.zero_le n)
  have huse (n : ℕ) : fs.InUse n ↔ n < fs.su.nblockDat ∧ fs.bit n = true := by
    constructor
    · rintro ⟨k, hk, rfl, hbit⟩
      rw [hzero, Nat.zero_add, u32_of_lt (by omega)]
      exact ⟨hk, hbit⟩
    · rintro ⟨hn, hbit⟩
      exact ⟨n, hn, by rw [hzero, Nat.zero_add, u32_of_lt (by omega)], hbit⟩
  intro n _
  by_cases hin : n < fs.su.nblockDat ∧ fs.bit n = true
  · obtain ⟨fs', hfree, -⟩ := bitmapFree_true ((hrange n).mpr hin.1) hin.2
    exact ⟨_, hfree, ⟨fun _ => (huse n).mpr hin, fun _ => rfl⟩, fun h => nomatch h⟩
  · refine ⟨_, bitmapFree_false fun h => ?_,
      ⟨fun h => (nomatch h), fun h => absurd ((huse n).mp h) hin⟩, fun _ => rfl⟩
    have hn := (hrange n).mp h
    refine ⟨by omega, ?_⟩
    by_contra hbit
    exact hin ⟨hn, Bool.not_eq_false _ ▸ hbit⟩

/-- With a data area from block 0 on, a release undoes the allocation. -/
theorem undoesAlloc_of_zero (hzero : fs.su.sdata = 0) (hdat : fs.su.nblockDat ≤ 4096) :
    UndoesAlloc fs := by
  intro n fs₁ hcall hne
  rcases bitmapAlloc_takes hcall with ⟨rfl, -, -⟩ | ⟨q, rfl, htakes⟩
  · exact absurd rfl hne
  · obtain ⟨k, hk, rfl, hclear, -, hsets⟩ := htakes.first_clear
    have hsu := htakes.su_eq
    rw [hzero, Nat.zero_add, u32_of_lt (by omega)]
    have hrange : fs₁.su.Freeable k := by
      rw [Superblock.Freeable, hsu, hzero, Nat.zero_add, u32_of_lt (by omega)]
      omega
    have hset : fs₁.bit k = true := by rw [hsets.bit_eq]; simp
    obtain ⟨fs₂, hfree, hclears⟩ := bitmapFree_true hrange hset
    refine ⟨fs₂, hfree, Block.ext_bit fun j _ => ?_⟩
    have hbit : fs₂.bit j = fs.bit j := by
      rw [hclears.bit_eq, hsets.bit_eq]
      by_cases hjk : j = k
      · simp [hjk, hclear]
      · simp [hjk]
    rwa [Fs.bit, Fs.bit, hclears.su_eq, hsu] at hbit

/-! ### Any other data area -/

/-- The bits of the data area and those that `bitmap_free` takes for them are clear. -/
def Unmarked (fs : Fs) : Prop :=
  ∀ k < fs.su.nblockDat, fs.bit k = false ∧ (fs.su.sdata + fs.su.nblockDat < 4294967296 →
    fs.su.sdata + k < 4096 ∧ fs.bit (fs.su.sdata + k) = false)

section Later

variable (hpos : 0 < fs.su.sdata) (hlt : fs.su.sdata < 4294967296) (hdat : fs.su.nblockDat ≤ 4096)

include hlt hdat

/-- A block that passes the range check is no wrapped number. -/
theorem freeable_iff {n : ℕ} : fs.su.Freeable n ↔
    fs.su.sdata + fs.su.nblockDat < 4294967296 ∧ fs.su.sdata ≤ n ∧
    n < fs.su.sdata + fs.su.nblockDat := by
  rw [Superblock.Freeable, u32]
  omega

/-- In an unmarked area shorter than a byte of bits nothing happens. -/
theorem calls_of_unmarked (hshort : fs.su.nblockDat < 8) (h : Unmarked fs) :
    bitmapAlloc fs = .ok (0, fs) ∧ ∀ n, bitmapFree fs n = .ok (false, fs) := by
  constructor
  · obtain ⟨⟨n, fs₁⟩, hcall⟩ := bitmapAlloc_returns hdat
    rcases bitmapAlloc_takes hcall with ⟨rfl, rfl, -⟩ | ⟨q, -, htakes⟩
    · exact hcall
    · obtain ⟨k, hk, -⟩ := htakes.first_clear
      omega
  · intro n
    apply bitmapFree_false
    intro hrange
    obtain ⟨hfits, hlow, hhigh⟩ := (freeable_iff hlt hdat).mp hrange
    obtain ⟨k, rfl⟩ := Nat.exists_eq_add_of_le hlow
    exact (h k (by omega)).2 hfits

include hpos

/-- If blocks in use can be freed in every state of every run, then no block is in use in any of
them: freeing one would leave its bit set. -/
theorem bit_of_freesInUse (h : ∀ t fs', BitmapRun fs t fs' → FreesInUse fs') {k : ℕ}
    (hk : k < fs.su.nblockDat) : fs.bit k = false := by
  by_contra hbit
  rw [Bool.not_eq_false] at hbit
  have huse : fs.InUse (u32 (fs.su.sdata + k)) := ⟨k, hk, rfl, hbit⟩
  obtain ⟨⟨r, fs₁⟩, hfree, hr, -⟩ := h [] fs .start _ (u32_lt _)
  obtain rfl : r = true := hr.mpr huse
  rcases bitmapFree_cases hfree with ⟨hr', -⟩ | ⟨-, hrange, -, hclears⟩
  · exact absurd hr' (by decide)
  · obtain ⟨hfits, -, -⟩ := (freeable_iff hlt hdat).mp hrange
    rw [u32_of_lt (by omega)] at hfree hclears
    have hsu := hclears.su_eq
    have hkept : fs₁.bit k = true := by
      rw [hclears.bit_eq, hbit, Bool.true_and, decide_eq_true (by omega)]
    obtain ⟨⟨r, fs₂⟩, hfree', hr', -⟩ :=
      h _ fs₁ (BitmapRun.free .start (by omega) hfree) (fs.su.sdata + k) (by omega)
    have huse' : fs₁.InUse (fs.su.sdata + k) :=
      ⟨k, by rwa [hsu], by rw [hsu, u32_of_lt (by omega)], hkept⟩
    obtain rfl : r = true := hr'.mpr huse'
    rcases bitmapFree_cases hfree' with ⟨hfalse, -⟩ | ⟨-, -, hset, -⟩
    · exact absurd hfalse (by decide)
    · have hcleared := hclears.bit_eq (fs.su.sdata + k)
      rw [Fs.bit, hset] at hcleared
      simp at hcleared

/-- If the blocks in use are freed after every run, there is nothing to allocate and no bit is set. -/
theorem unmarked_of_freesInUse (h : ∀ t fs', BitmapRun fs t fs' → FreesInUse fs') :
    fs.su.nblockDat < 8 ∧ Unmarked fs := by
  have hclear {k : ℕ} (hk : k < fs.su.nblockDat) : fs.bit k = false :=
    bit_of_freesInUse hpos hlt hdat h hk
  constructor
  · by_contra hlong
    obtain ⟨⟨n, fs₁⟩, hcall⟩ := bitmapAlloc_returns hdat
    rcases bitmapAlloc_takes hcall with ⟨-, -, hempty⟩ | ⟨q, -, htakes⟩
    · have hset := bit_of_freeBlocks_nil hempty hdat 0 (by omega)
      rw [hclear (by omega)] at hset
      exact absurd hset (by decide)
    · obtain ⟨k, hk, -, -, -, hsets⟩ := htakes.first_clear
      have hsu := htakes.su_eq
      have hafter : ∀ t fs', BitmapRun fs₁ t fs' → FreesInUse fs' :=
        fun t fs' hrun => h _ fs' ((BitmapRun.alloc .start hcall).trans hrun)
      have hk₁ : fs₁.bit k = false := by
        refine bit_of_freesInUse ?_ ?_ ?_ hafter ?_ <;> rw [hsu] <;> omega
      rw [hsets.bit_eq] at hk₁
      simp at hk₁
  · intro k hk
    refine ⟨hclear hk, fun hfits => ?_⟩
    obtain ⟨⟨r, fs₁⟩, hfree, hr, -⟩ := h [] fs .start (fs.su.sdata + k) (by omega)
    have hnot : ¬fs.InUse (fs.su.sdata + k) := by
      rintro ⟨j, hj, -, hbit⟩
      rw [hclear hj] at hbit
      exact absurd hbit (by decide)
    obtain rfl : r = false := by
      cases r with
      | false => rfl
      | true => exact absurd (hr.mp rfl) hnot
    rcases bitmapFree_cases hfree with ⟨-, -, hbit⟩ | ⟨htrue, -⟩
    · exact hbit ((freeable_iff hlt hdat).mpr ⟨hfits, by omega, by omega⟩)
    · exact absurd htrue (by decide)

end Later

/-- When `bitmap_free` is the inverse of `bitmap_alloc` on the superblock of a new file system: if
the data area starts with block 0, or if no block can be allocated and no bit is taken for one that
is in use. -/
theorem bitmapFree_inverse_iff {p : Partition} (hsu : fs.su = newSuper p)
    (hdat : fs.su.nblockDat ≤ 4096) :
    (UndoesAlloc fs ∧ ∀ t fs', BitmapRun fs t fs' → FreesInUse fs') ↔
      fs.su.sdata = 0 ∨ fs.su.nblockDat < 8 ∧ Unmarked fs := by
  have hlt : fs.su.sdata < 4294967296 := by rw [hsu]; exact u32_lt _
  constructor
  · rintro ⟨-, hfrees⟩
    rcases Nat.eq_zero_or_pos fs.su.sdata with hzero | hpos
    · exact .inl hzero
    · exact .inr (unmarked_of_freesInUse hpos hlt hdat hfrees)
  · rintro (hzero | ⟨hshort, hunmarked⟩)
    · refine ⟨undoesAlloc_of_zero hzero hdat, fun t fs' hrun => ?_⟩
      have hsame := hrun.su_eq
      exact freesInUse_of_zero (by rw [hsame, hzero]) (by rwa [hsame])
    · obtain ⟨halloc, hfree⟩ := calls_of_unmarked hlt hdat hshort hunmarked
      constructor
      · intro n fs₁ hcall hne
        rw [halloc] at hcall
        cases hcall
        exact absurd rfl hne
      · intro t fs' hrun
        have hsame : fs' = fs := by
          refine hrun.preserves (I := fun fs₁ => fs₁ = fs) ?_ rfl
          rintro _ fs₁ c r fs₂ rfl - hexec
          cases c with
          | alloc =>
            rw [BitmapCall.exec, halloc, ok_bind] at hexec
            cases hexec
            rfl
          | free n =>
            rw [BitmapCall.exec, hfree n, ok_bind] at hexec
            cases hexec
            rfl
        rw [hsame]
        intro n _
        refine ⟨_, hfree n, ⟨fun h => (nomatch h), ?_⟩, fun _ => rfl⟩
        rintro ⟨k, hk, -, hbit⟩
        rw [(hunmarked k hk).1] at hbit
        exact absurd hbit (by decide)

/-- A file system with a data area of eight blocks, from block 57 on, and nothing in use. -/
def smallArea : Fs where
  init := true
  su := newSuper ⟨0, 65⟩
  disk := fun _ => .zero
  printed := []

/-- The first block that is allocated cannot be given back. -/
theorem bitmapFree_smallArea : ¬UndoesAlloc smallArea ∧
    ∃ fs₁, bitmapAlloc smallArea = .ok (57, fs₁) ∧ bitmapFree fs₁ 57 = .ok (false, fs₁) ∧
    ¬FreesInUse fs₁ := by
  obtain ⟨fs₁, hcall, hfree, huse⟩ : ∃ fs₁, bitmapAlloc smallArea = .ok (57, fs₁) ∧
      bitmapFree fs₁ 57 = .ok (false, fs₁) ∧ fs₁.InUse 57 :=
      ⟨_, rfl, rfl, 0, by decide, by decide, by decide⟩
  refine ⟨fun hundo => ?_, fs₁, hcall, hfree, fun hfrees => ?_⟩
  · obtain ⟨fs₂, hfree', -⟩ := hundo 57 fs₁ hcall (by decide)
    rw [hfree] at hfree'
    cases hfree'
  · obtain ⟨r, hfree', hr, -⟩ := hfrees 57 (by decide)
    rw [hfree] at hfree'
    cases hfree'
    exact nomatch hr.mpr huse

/-- The condition for this area. -/
theorem bitmapFree_inverse_iff_smallArea :
    (UndoesAlloc smallArea ∧ ∀ t fs', BitmapRun smallArea t fs' → FreesInUse fs') ↔
      smallArea.su.sdata = 0 ∨ smallArea.su.nblockDat < 8 ∧ Unmarked smallArea :=
  bitmapFree_inverse_iff (p := ⟨0, 65⟩) rfl (by decide)

end Hobby386
