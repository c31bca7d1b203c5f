import Hobby386.Fs.WriteTraversal

/-!
# A write to one tree

The branches of `recursive_rw` in a write: the skipped subtree, the allocation that fails, the
data block, and the indirect block with the recursion below it. Together with the composition
over the pointers of an array they give the effect of the recursion at every level.
-/

namespace Hobby386

open PointerForest

variable {c : WriteRequest} {l p q : ℕ} {fs fs₁ : Fs} {sa : ShareArg} {rest : ℕ → ℕ}

/-- The block a write takes from the free list for the pointer cell `p`. -/
def newBlocks (p q : ℕ) : List ℕ := if p = 0 then [q] else []

/-- A pointer that was null takes one block. -/
theorem length_newBlocks (t : ℕ × ℕ) :
    (if p = 0 then [t] else []).length = (newBlocks p q).length := by
  rw [newBlocks]
  split <;> rfl

/-- The state in which a write enters the block `q` that the pointer cell `p` refers to from now
on: a null cell has got a free block, zeroed if it is to hold pointers. -/
structure Prepared (fs : Fs) (ilevel p q : ℕ) (fs₁ : Fs) : Prop where
  same : fs₁ = { fs with disk := fs₁.disk }
  inData : fs.su.InData q
  old : p ≠ 0 → q = p ∧ fs₁ = fs
  free : freeBlocks fs.su fs.disk = newBlocks p q ++ freeBlocks fs.su fs₁.disk
  marked : ∀ n, fs.su.sdata ≤ n →
    marked fs.su fs₁.disk n = (marked fs.su fs.disk n || decide (n ∈ newBlocks p q))
  frame : ∀ m, m ≠ fs.su.sbitmap → m ≠ q → fs₁.disk m = fs.disk m
  data : ilevel = 0 → fs₁.disk q = fs.disk q
  zeroed : p = 0 → ilevel ≠ 0 → fs₁.disk q = .zero

/-- The allocation part of a write prepares the block, or finds no free block. -/
theorem rwAlloc_cases (hlayout : fs.su.Layout)
    (hacc : Accounts fs.su fs.disk fun n => refs Block.ptrs fs.disk [(l, p)] n + rest n)
    {a : ℕ × Fs} (h : rwAlloc bitmapAlloc l p fs = .ok a) :
    (a.1 = 0 ∧ p = 0 ∧ a.2 = fs ∧ freeBlocks fs.su fs.disk = []) ∨
      (a.1 ≠ 0 ∧ Prepared fs l p a.1 a.2) := by
  have hsb := hlayout.sbitmap
  have hsd := hlayout.sdata
  rw [rwAlloc] at h
  by_cases hp : p = 0
  · rw [if_pos hp, bind_eq_ok] at h
    obtain ⟨⟨q, fs₁⟩, halloc, h⟩ := h
    rcases bitmapAlloc_cases hlayout halloc with ⟨rfl, rfl, hnil⟩ | ⟨⟨b, hwrite⟩, hfree, hmarked⟩
    · rw [if_pos rfl] at h
      cases h
      exact .inl ⟨rfl, hp, rfl, hnil⟩
    · have hmem : q ∈ freeBlocks fs.su fs.disk := by rw [hfree]; exact List.mem_cons_self
      obtain ⟨hdata, -⟩ := of_mem_freeBlocks hmem
      have hlow := hdata.1
      rw [if_neg (show q ≠ 0 by omega)] at h
      have hframe (m : ℕ) (hm : m ≠ fs.su.sbitmap) : fs₁.disk m = fs.disk m := by
        rw [hwrite, Fs.diskWrite_disk_of_ne hm]
      have hsame : fs₁ = { fs with disk := fs₁.disk } := by rw [hwrite]; rfl
      have hbits (b' : Block) (h' : q ≠ fs.su.sbitmap) :
          (fs₁.diskWrite q b').disk fs.su.sbitmap = fs₁.disk fs.su.sbitmap :=
        Fs.diskWrite_disk_of_ne h'.symm
      have hqsb : q ≠ fs.su.sbitmap := by omega
      right
      split at h
      · rename_i hl
        cases h
        refine ⟨by simp only; omega, hsame, hdata, fun h => absurd hp h, ?_, ?_,
          fun m hm _ => hframe m hm,
          fun _ => hframe _ hqsb, fun _ h => absurd hl h⟩
        · rw [newBlocks, if_pos hp, hfree, List.singleton_append]
        · intro n hn
          rw [hmarked n hn]
          simp [newBlocks, hp]
      · rename_i hl
        cases h
        refine ⟨by simp only; omega, ?_, hdata, fun h => absurd hp h, ?_, ?_, fun m hm hmq => ?_,
          fun h => absurd h hl, fun _ _ => Fs.diskWrite_disk_self _ _ _⟩
        · rw [hsame]
          rfl
        · rw [newBlocks, if_pos hp, hfree, freeBlocks_congr (hbits _ hqsb), List.singleton_append]
        · intro n hn
          rw [marked_congr (hbits _ hqsb), hmarked n hn]
          simp [newBlocks, hp]
        · rw [Fs.diskWrite_disk_of_ne hmq, hframe m hm]
  · rw [if_neg hp] at h
    cases h
    have hown := (hacc p).2 (Nat.add_pos_left (refs_root hp) _)
    refine .inr ⟨hp, rfl, hown.1, fun _ => ⟨rfl, rfl⟩, ?_, ?_, fun _ _ _ => rfl, fun _ => rfl,
      fun h => absurd h hp⟩
    · rw [newBlocks, if_neg hp, List.nil_append]
    · intro n _
      simp [newBlocks, hp]

/-- A prepared pointer is not null. -/
theorem Prepared.ne_zero (hprep : Prepared fs l p q fs₁) (hlayout : fs.su.Layout) : q ≠ 0 := by
  have hsd := hlayout.sdata
  have hlow := hprep.inData.1
  omega

/-- The skip branch of a write. -/
theorem WriteResult.skip (hvalid : c.Valid) (hpos : WritePos c sa)
    (hroom : sa.boff + 128 ^ l ≤ maxBlocks)
    (hskip : ¬(sa.boff ≤ sa.eblock ∧ sa.sblock < sa.boff + 128 ^ l)) :
    WriteResult c [(l, p)] sa.boff fs 0 [(l, p)]
      { sa with
        boff := sa.boff + 128 ^ l
        off := u32 (sa.off + u32 (sub32 (sa.boff + 128 ^ l) sa.boff * 512)) } fs := by
  obtain ⟨hnext, hnone⟩ := hpos.skip hvalid hroom hskip
  rw [hpos.eblock, hpos.sblock] at hskip
  have hneed : need Block.ptrs 128 fs.disk c.sblock c.eblock [(l, p)] sa.boff = [] := need_skip hskip
  constructor
  case same => rfl
  case heights => rfl
  case small => exact id
  case pos => exact hnext
  case finished =>
    intro _
    simp [hneed]
  case stopped => exact fun h => absurd rfl h
  case free => simp [hneed]
  case marked => simp [hneed]
  case owned => simp [hneed]
  case frame => exact fun _ _ _ => rfl
  case kept => exact fun _ _ _ => rfl
  case mapped =>
    intro k q _ _ hzero hq
    rw [hneed, hzero]
    simp [hq.symm]
  case before =>
    intro k hk hk' _ r hr
    rw [if_neg ((hnone k hk hk').2 r hr)]
  case after => exact fun _ _ _ => ⟨rfl, fun _ => rfl⟩
  case covered =>
    intro k hk hk' hs he
    exact absurd ⟨hs, he⟩ (hnone k hk hk').1

/-- The failing allocation leaves everything as it is. -/
theorem WriteResult.outOfBlocks (hpos : WritePos c sa)
    (hvisit : sa.boff ≤ sa.eblock ∧ sa.sblock < sa.boff + 128 ^ l)
    (hfree : freeBlocks fs.su fs.disk = []) :
    WriteResult c [(l, 0)] sa.boff fs (-1) [(l, 0)] sa fs := by
  rw [hpos.eblock, hpos.sblock] at hvisit
  obtain ⟨tail, htail⟩ : ∃ tail, need Block.ptrs 128 fs.disk c.sblock c.eblock [(l, 0)] sa.boff =
      (l, sa.boff) :: tail := need_null hvisit
  have hw : 0 < 128 ^ l := Nat.pow_pos (by decide)
  constructor
  case same => rfl
  case heights => rfl
  case small => exact id
  case pos => exact hpos
  case finished => exact fun h => absurd h (by decide)
  case stopped =>
    refine fun _ => ⟨le_rfl, ?_, ?_⟩
    · simp only [width_cons, width_nil]
      omega
    · simp [hfree, htail]
  case free => simp [hfree]
  case marked => simp [hfree]
  case owned => simp [hfree]
  case frame => exact fun _ _ _ => rfl
  case kept => exact fun _ _ _ => rfl
  case mapped =>
    intro k q _ _ hzero hq
    rw [hfree, hzero]
    simp [hq.symm]
  case before =>
    intro k hk hk'
    omega
  case after => exact fun _ _ _ => ⟨rfl, fun _ => rfl⟩
  case covered =>
    intro k hk hk'
    omega

/-- The data block branch of a write. -/
theorem WriteResult.dataBlock (hlayout : fs.su.Layout) (hvalid : c.Valid) (hpos : WritePos c sa)
    (hvisit : sa.boff ≤ sa.eblock ∧ sa.sblock < sa.boff + 1) (hprep : Prepared fs 0 p q fs₁) :
    WriteResult c [(0, p)] sa.boff fs (rwData (sa.boff + 1) q sa fs₁).ret
      [(0, (rwData (sa.boff + 1) q sa fs₁).pp)] (rwData (sa.boff + 1) q sa fs₁).sa
      (rwData (sa.boff + 1) q sa fs₁).fs := by
  have hsb := hlayout.sbitmap
  have hsd := hlayout.sdata
  have hfits := hlayout.fits
  obtain ⟨hlow, hhigh⟩ := hprep.inData
  obtain ⟨hnext, hpatch⟩ := hpos.data hvalid hvisit.2 rfl rfl
  rw [hpos.eblock, hpos.sblock] at hvisit
  have hneed : need Block.ptrs 128 fs.disk c.sblock c.eblock [(0, p)] sa.boff =
      if p = 0 then [(0, sa.boff)] else [] := need_leaf hvisit
  have hlen : (need Block.ptrs 128 fs.disk c.sblock c.eblock [(0, p)] sa.boff).length =
      (newBlocks p q).length := by
    rw [hneed, length_newBlocks]
  have htake : (freeBlocks fs.su fs.disk).take
      (need Block.ptrs 128 fs.disk c.sblock c.eblock [(0, p)] sa.boff).length = newBlocks p q := by
    rw [hlen, hprep.free, List.take_left]
  have hbits {b : Block} : (fs₁.diskWrite q b).disk fs.su.sbitmap = fs₁.disk fs.su.sbitmap :=
    Fs.diskWrite_disk_of_ne (by omega)
  have hlookup (d : Disk) (a k : ℕ) (hk : k < sa.boff + 1) :
      lookup Block.ptrs 128 d [(0, a)] sa.boff k = a := by
    rw [lookup_leaf, if_pos hk]
  simp only [rwData, hpos.w, if_true]
  set blk := Block.ofFn (memcpy (fs₁.diskRead q).get (sa.off % blockSize) sa.mem sa.buf
    (if sa.left < blockSize - sa.off % blockSize then sa.left else
      blockSize - sa.off % blockSize)) with hblk
  have hbyte (r : ℕ) (hr : r < 512) : blk.get r =
      if c.Covers (512 * sa.boff + r) then c.src (512 * sa.boff + r - c.off) else (fs.disk q).get r := by
    obtain ⟨hiff, hsrc⟩ := hpatch r hr
    rw [hblk, Block.get_ofFn _ hr, memcpy, hpos.mem]
    by_cases hcov : c.Covers (512 * sa.boff + r)
    · rw [if_pos (hiff.mpr hcov), if_pos hcov, hsrc hcov]
    · rw [if_neg (fun h => hcov (hiff.mp h)), if_neg hcov, Fs.diskRead, hprep.data rfl]
  constructor
  case same =>
    rw [hprep.same]
    rfl
  case heights => rfl
  case small =>
    intro _ u hu
    rw [List.mem_singleton] at hu
    subst hu
    simp only
    omega
  case pos => simpa only [hpos.w] using hnext
  case finished =>
    intro _
    refine ⟨by simp, ?_⟩
    rw [hlen, hprep.free, List.length_append]
    omega
  case stopped => exact fun h => absurd rfl h
  case free => rw [freeBlocks_congr hbits, hlen, hprep.free, List.drop_left]
  case marked =>
    intro n hn
    rw [marked_congr hbits, hprep.marked n hn, htake]
  case owned =>
    intro n
    rw [refs_leaf, refs_leaf, htake, newBlocks, if_neg (show q ≠ 0 by omega)]
    by_cases hp : p = 0
    · simp [hp, List.count_singleton]
    · simp [hp, (hprep.old hp).1]
  case frame =>
    intro m hm hzero
    have hne : m ≠ q := by
      rintro rfl
      rw [refs_leaf, if_neg (by omega), if_pos rfl] at hzero
      exact absurd hzero (by decide)
    rw [Fs.diskWrite_disk_of_ne hne, hprep.frame m hm hne]
  case kept =>
    intro k hk hne
    rcases Nat.lt_or_ge k (sa.boff + 1) with hlt | hge
    · rw [hlookup _ _ _ hlt] at hne ⊢
      rw [hlookup _ _ _ hlt, (hprep.old hne).1]
    · exact absurd (lookup_eq_zero (by simpa using hge)) hne
  case mapped =>
    intro k a hk hk' hzero ha
    have hlt : k < sa.boff + 1 := by simpa using hk'
    obtain rfl : k = sa.boff := by omega
    rw [hlookup _ _ _ hlt] at hzero ⊢
    rw [hneed, if_pos hzero, hprep.free, newBlocks, if_pos hzero]
    simp [eq_comm]
  case before =>
    intro k hk hk' _ r hr
    obtain rfl : k = sa.boff := by simp only at hk'; omega
    rw [hlookup _ _ _ (by omega), Fs.diskWrite_disk_self]
    exact hbyte r hr
  case after =>
    intro k hk hk'
    simp at hk hk'
    omega
  case covered =>
    intro k hk hk' _ _
    simp only at hk'
    rw [hlookup _ _ _ (by omega)]
    omega

/-! ## Indirect blocks -/

/-- The pointers a write finds in the block it has prepared. -/
theorem Prepared.kids (hprep : Prepared fs (l + 1) p q fs₁) :
    (fs₁.disk q).ptrs = if p = 0 then List.replicate 128 0 else (fs.disk p).ptrs := by
  split
  · rename_i hp
    rw [hprep.zeroed hp (Nat.succ_ne_zero l), Block.ptrs_zero]
  · rename_i hp
    obtain ⟨rfl, rfl⟩ := hprep.old hp
    rfl

/-- Preparing the root of a tree changes neither what the tree maps nor, the new block apart, what
it owns and what it needs. -/
theorem Prepared.tree (hprep : Prepared fs (l + 1) p q fs₁) (s e B : ℕ) :
    (∀ n, refs Block.ptrs fs.disk [(l + 1, p)] n + (newBlocks p q).count n =
      (if n = q then 1 else 0) + refs Block.ptrs fs₁.disk (row l (fs₁.disk q).ptrs) n) ∧
    (∀ k, lookup Block.ptrs 128 fs.disk [(l + 1, p)] B k =
      lookup Block.ptrs 128 fs₁.disk (row l (fs₁.disk q).ptrs) B k) ∧
    (B ≤ e ∧ s < B + 128 ^ (l + 1) → need Block.ptrs 128 fs.disk s e [(l + 1, p)] B =
      (if p = 0 then [(l + 1, B)] else []) ++
        need Block.ptrs 128 fs₁.disk s e (row l (fs₁.disk q).ptrs) B) := by
  by_cases hp : p = 0
  · have hkids := hprep.kids
    rw [if_pos hp] at hkids
    rw [hkids]
    refine ⟨fun n => ?_, fun k => ?_, fun h => ?_⟩
    · rw [refs_row_replicate, hp, refs_null, newBlocks, if_pos rfl, List.count_singleton]
      simp only [beq_iff_eq, eq_comm (a := q)]
      omega
    · rw [lookup_row_replicate, hp, lookup_null]
    · rw [need_node h, if_pos hp, if_pos hp]
      congr 1
      exact (need_frame (fun m hm => by rw [refs_row_replicate] at hm; omega) B).symm
  · obtain ⟨rfl, rfl⟩ := hprep.old hp
    refine ⟨fun n => ?_, fun k => ?_, fun h => ?_⟩
    · rw [refs_node hp, newBlocks, if_neg hp]
      simp [eq_comm]
    · rw [lookup_node_full (Block.ptrs_length _) hp]
    · rw [need_node h, if_neg hp, if_neg hp]

/-- Below a prepared indirect block ownership is sound, the block itself being one of the others. -/
theorem Prepared.accounts (hprep : Prepared fs (l + 1) p q fs₁)
    (hacc : Accounts fs.su fs.disk fun n => refs Block.ptrs fs.disk [(l + 1, p)] n + rest n) :
    Accounts fs₁.su fs₁.disk fun n => refs Block.ptrs fs₁.disk (row l (fs₁.disk q).ptrs) n +
      ((if n = q then 1 else 0) + rest n) := by
  have hsu : fs₁.su = fs.su := by rw [hprep.same]
  rw [hsu]
  intro n
  have hrefs := (hprep.tree 0 0 0).1 n
  have hold := hacc n
  beta_reduce at hold ⊢
  have hmem : n ∈ newBlocks p q → refs Block.ptrs fs.disk [(l + 1, p)] n + rest n = 0 := fun hn =>
    hacc.eq_zero_of_free (by rw [hprep.free]; exact List.mem_append_left _ hn)
  by_cases hn : n ∈ newBlocks p q
  · have hzero := hmem hn
    have hone : (newBlocks p q).count n ≤ 1 := by
      rw [newBlocks]
      split
      · rw [List.count_singleton]
        split <;> simp
      · simp
    refine ⟨by omega, fun _ => ?_⟩
    have hdata : fs.su.InData n := by
      rw [newBlocks] at hn
      split at hn
      · rw [List.mem_singleton.mp hn]
        exact hprep.inData
      · simp at hn
    refine ⟨hdata, ?_⟩
    rw [hprep.marked n hdata.1, decide_eq_true hn, Bool.or_true]
  · rw [List.count_eq_zero_of_not_mem hn] at hrefs
    refine ⟨by omega, fun hpos => ?_⟩
    obtain ⟨hdata, hmarked⟩ := hold.2 (by omega)
    refine ⟨hdata, ?_⟩
    rw [hprep.marked n hdata.1, hmarked, Bool.true_or]

/-- The root costs one free block when its pointer is null, the row below it the rest. -/
theorem Prepared.take (hprep : Prepared fs (l + 1) p q fs₁) {s e B : ℕ}
    (hvisit : B ≤ e ∧ s < B + 128 ^ (l + 1)) :
    (need Block.ptrs 128 fs.disk s e [(l + 1, p)] B).length = (newBlocks p q).length +
      (need Block.ptrs 128 fs₁.disk s e (row l (fs₁.disk q).ptrs) B).length ∧
    (freeBlocks fs.su fs.disk).take (need Block.ptrs 128 fs.disk s e [(l + 1, p)] B).length =
      newBlocks p q ++ (freeBlocks fs.su fs₁.disk).take
        (need Block.ptrs 128 fs₁.disk s e (row l (fs₁.disk q).ptrs) B).length := by
  have hlength : (need Block.ptrs 128 fs.disk s e [(l + 1, p)] B).length = (newBlocks p q).length +
      (need Block.ptrs 128 fs₁.disk s e (row l (fs₁.disk q).ptrs) B).length := by
    rw [(hprep.tree s e B).2.2 hvisit, List.length_append, length_newBlocks]
  refine ⟨hlength, ?_⟩
  rw [hlength, hprep.free, List.take_length_add_append]

/-- A block of pointers written above their trees makes them one tree. -/
theorem tree_diskWrite {ps : List ℕ} (hq : q ≠ 0) (hlen : ps.length = 128)
    (hsmall : ∀ a ∈ ps, a < 4294967296) (hfree : refs Block.ptrs fs.disk (row l ps) q = 0) :
    (∀ n, refs Block.ptrs (fs.diskWrite q (.ofPtrs ps)).disk [(l + 1, q)] n =
      (if n = q then 1 else 0) + refs Block.ptrs fs.disk (row l ps) n) ∧
    ∀ B k, lookup Block.ptrs 128 (fs.diskWrite q (.ofPtrs ps)).disk [(l + 1, q)] B k =
      lookup Block.ptrs 128 fs.disk (row l ps) B k := by
  have hkids : ((fs.diskWrite q (.ofPtrs ps)).disk q).ptrs = ps := by
    rw [Fs.diskWrite_disk_self, Block.ptrs_ofPtrs hlen hsmall]
  have hbelow (m : ℕ) (hm : 0 < refs Block.ptrs fs.disk (row l ps) m) :
      (fs.diskWrite q (.ofPtrs ps)).disk m = fs.disk m :=
    Fs.diskWrite_disk_of_ne (by rintro rfl; omega)
  constructor
  · intro n
    rw [refs_node hq, hkids, refs_frame hbelow]
    simp only [eq_comm (a := q)]
  · intro B k
    rw [lookup_node_full (Block.ptrs_length _) hq, hkids, lookup_frame hbelow]

/-- The pointers behind a loop over the pointers of a block fit into the block. -/
theorem WriteResult.fits_row {B : ℕ} {b : Block} {ret : ℤ} {ps : List ℕ}
    (h : WriteResult c (row l b.ptrs) B fs ret (row l ps) sa fs₁) : ps.length = 128 ∧
    ∀ a ∈ ps, a < 4294967296 := by
  constructor
  · have hheights := congrArg List.length h.heights
    simpa [row] using hheights
  · intro a ha
    refine h.small ?_ (l, a) (List.mem_map_of_mem ha)
    intro t ht
    obtain ⟨p, hp, rfl⟩ := List.mem_map.mp ht
    exact b.ptrs_lt hp

/-- The indirect block branch of a write, given the effect of the loop over its pointers. -/
theorem WriteResult.indirectBlock (hlayout : fs.su.Layout) {B : ℕ}
    (hvisit : B ≤ c.eblock ∧ c.sblock < B + 128 ^ (l + 1))
    (hacc : Accounts fs.su fs.disk fun n => refs Block.ptrs fs.disk [(l + 1, p)] n + rest n)
    (hprep : Prepared fs (l + 1) p q fs₁) {ret ret' : ℤ} {ps : List ℕ} {sa' : ShareArg} {fs₂ : Fs}
    (hret : ret' = 0 ↔ ret = 0)
    (hloop : WriteResult c (row l (fs₁.disk q).ptrs) B fs₁ ret (row l ps) sa' fs₂) :
    WriteResult c [(l + 1, p)] B fs ret' [(l + 1, q)] sa' (fs₂.diskWrite q (.ofPtrs ps)) := by
  have hsb := hlayout.sbitmap
  have hsd := hlayout.sdata
  have hfits := hlayout.fits
  obtain ⟨hlow, hhigh⟩ := hprep.inData
  have hsu₁ : fs₁.su = fs.su := by rw [hprep.same]
  have hacc₁ := hprep.accounts hacc
  have hqrest : 0 < (if q = q then 1 else 0) + rest q := by simp
  have hqfree : refs Block.ptrs fs₂.disk (row l ps) q = 0 := hloop.disjoint hacc₁ hqrest
  obtain ⟨hrefs, hlookup, hneed⟩ := hprep.tree c.sblock c.eblock B
  replace hneed := hneed hvisit
  obtain ⟨hlen, hsmall⟩ := hloop.fits_row
  have hwidth : width 128 [(l + 1, p)] = width 128 (row l (fs₁.disk q).ptrs) := by
    rw [width_row, Block.ptrs_length, width_cons, width_nil, Nat.add_zero, pow_succ']
  obtain ⟨hrefs₃, hlookup₃⟩ := tree_diskWrite (show q ≠ 0 by omega) hlen hsmall hqfree
  set fs₃ := fs₂.diskWrite q (.ofPtrs ps) with hfs₃
  have hother {m : ℕ} (hm : m ≠ q) : fs₃.disk m = fs₂.disk m := Fs.diskWrite_disk_of_ne hm
  have hdata {n : ℕ} (hn : 0 < refs Block.ptrs fs₂.disk (row l ps) n) : fs.su.InData n :=
    hsu₁ ▸ hloop.inData hacc₁ hn
  have hmap (k : ℕ) (hne : lookup Block.ptrs 128 fs₂.disk (row l ps) B k ≠ 0) :
      lookup Block.ptrs 128 fs₂.disk (row l ps) B k ≠ fs.su.sbitmap ∧
        lookup Block.ptrs 128 fs₂.disk (row l ps) B k ≠ q := by
    have hmem := refs_lookup hne
    have hlow := (hdata hmem).1
    refine ⟨by omega, fun h => ?_⟩
    rw [h] at hmem
    omega
  obtain ⟨hlength, htake⟩ := hprep.take hvisit
  have hbits : fs₃.disk fs.su.sbitmap = fs₂.disk fs.su.sbitmap := hother (by omega)
  obtain ⟨hsame, hheights, -, hpos, hfinished, hstopped, hfree, hmarked, howned, hframe, hkept,
    hmapped, hbefore, hafter, hcovered⟩ := hloop
  rw [hsu₁] at hfinished hstopped hfree hmarked howned hframe hmapped
  constructor
  case same =>
    rw [hfs₃, hsame, hprep.same]
    rfl
  case heights => rfl
  case small =>
    intro _ u hu
    rw [List.mem_singleton] at hu
    subst hu
    simp only
    omega
  case pos => exact hpos
  case finished =>
    intro h
    obtain ⟨hb, hle⟩ := hfinished (hret.mp h)
    rw [hwidth, hlength, hprep.free, List.length_append]
    omega
  case stopped =>
    intro h
    obtain ⟨hb, hb', hlt⟩ := hstopped (fun h' => h (hret.mpr h'))
    rw [hwidth, hlength, hprep.free, List.length_append]
    omega
  case free => rw [freeBlocks_congr hbits, hfree, hlength, hprep.free, List.drop_length_add_append]
  case marked =>
    intro n hn
    rw [marked_congr hbits, hmarked n hn, hprep.marked n hn, htake, Bool.or_assoc]
    congr 1
    simp only [List.mem_append, Bool.decide_or]
  case owned =>
    intro n
    have h := hrefs n
    rw [hrefs₃, howned n, htake, List.count_append]
    omega
  case frame =>
    intro m hm hzero
    rw [hrefs₃] at hzero
    have hmq : m ≠ q := by
      rintro rfl
      simp at hzero
    rw [hother hmq, hframe m hm (by omega), hprep.frame m hm hmq]
  case kept =>
    intro k hk hne
    rw [hlookup₃, hlookup]
    rw [hlookup] at hne
    exact hkept k hk hne
  case mapped =>
    intro k a hk hk' hzero ha
    rw [hwidth] at hk'
    rw [hlookup] at hzero
    rw [hlookup₃, hmapped k a hk hk' hzero ha, hneed, hprep.free, FirstFit.zip_append_left,
      length_newBlocks, List.drop_left, List.mem_append]
    refine ⟨Or.inr, fun h => h.resolve_left fun h => ?_⟩
    have hroot := (List.of_mem_zip h).1
    split at hroot
    · simp at hroot
    · simp at hroot
  case before =>
    intro k hk hk' hne r hr
    rw [hlookup₃] at hne ⊢
    obtain ⟨hx, hxq⟩ := hmap k hne
    rw [hother hxq, hbefore k hk hk' hne r hr, hprep.frame _ hx hxq]
  case after =>
    intro k hk hk'
    rw [hwidth] at hk'
    obtain ⟨heq, hkeep⟩ := hafter k hk hk'
    rw [hlookup₃, hlookup]
    refine ⟨heq, fun hne => ?_⟩
    have hne₂ := hne
    rw [← heq] at hne₂
    obtain ⟨hx, hxq⟩ := hmap k hne₂
    rw [heq] at hx hxq
    rw [hother hxq, hkeep hne, hprep.frame _ hx hxq]
  case covered =>
    intro k hk hk' hs he
    rw [hlookup₃]
    exact hcovered k hk hk' hs he

/-! ## The recursion -/

/-- A call at level `l` has the effect of a write on the tree it is given, wherever the traversal
stands and whoever owns the other blocks. -/
def Writes (c : WriteRequest) (l : ℕ) (rw : RwFn) : Prop :=
  ∀ (p : ℕ) (sa : ShareArg) (fs : Fs) (rest : ℕ → ℕ) (r : RwOut), fs.su.Layout → WritePos c sa →
    sa.boff + 128 ^ l ≤ maxBlocks →
    (Accounts fs.su fs.disk fun n => refs Block.ptrs fs.disk [(l, p)] n + rest n) →
    rw p sa fs = .ok r → WriteResult c [(l, p)] sa.boff fs r.ret [(l, r.pp)] r.sa r.fs

/-- What a loop over pointers does in a write: one call, and the rest of the loop if the call
returns 0. -/
theorem rwPtrs_cons_cases {rw : ℕ → RwFn} {level : ℕ → ℕ} (hrw : ∀ i, Writes c (level i) (rw i))
    {ps : List ℕ} {i : ℕ} {t : RwLoop} (hlayout : fs.su.Layout) (hpos : WritePos c sa)
    (hroom : sa.boff + width 128 (forestFrom level i (p :: ps)) ≤ maxBlocks)
    (hacc : Accounts fs.su fs.disk fun n => refs Block.ptrs fs.disk (forestFrom level i (p :: ps))
      n + rest n)
    (h : rwPtrs rw i (p :: ps) sa fs = .ok t) :
    ∃ r, rw i p sa fs = .ok r ∧ sa.boff + 128 ^ level i ≤ maxBlocks ∧
      WriteResult c [(level i, p)] sa.boff fs r.ret [(level i, r.pp)] r.sa r.fs ∧
      (r.ret ≠ 0 ∧ t = ⟨r.ret, r.pp :: ps, r.sa, r.fs⟩ ∨
        r.ret = 0 ∧ ∃ t', rwPtrs rw (i + 1) ps r.sa r.fs = .ok t' ∧
          t = ⟨t'.ret, r.pp :: t'.ptrs, t'.sa, t'.fs⟩ ∧
          r.sa.boff = sa.boff + 128 ^ level i ∧ r.fs.su.Layout ∧
          r.sa.boff + width 128 (forestFrom level (i + 1) ps) ≤ maxBlocks) := by
  rw [rwPtrs, bind_eq_ok] at h
  obtain ⟨r, hcall, h⟩ := h
  rw [forestFrom] at hroom hacc
  rw [width_cons] at hroom
  dsimp only at hroom
  have hroom₁ : sa.boff + 128 ^ level i ≤ maxBlocks := by omega
  have hfirst := hrw i p sa fs _ r hlayout hpos hroom₁ hacc.split_head hcall
  refine ⟨r, hcall, hroom₁, hfirst, ?_⟩
  split at h
  · rename_i hret
    rw [bind_eq_ok] at h
    obtain ⟨t', hloop, h⟩ := h
    cases h
    have hboff := (hfirst.finished hret).1
    rw [width_cons, width_nil, Nat.add_zero] at hboff
    dsimp only at hboff
    have hsu : r.fs.su = fs.su := by rw [hfirst.same]
    exact .inr ⟨hret, t', hloop, rfl, hboff, hsu ▸ hlayout, by rw [hboff]; omega⟩
  · rename_i hret
    cases h
    exact .inl ⟨hret, rfl⟩

/-- A loop over pointers has the effect of a write on their forest. -/
theorem WriteResult.loop {rw : ℕ → RwFn} {level : ℕ → ℕ} (hrw : ∀ i, Writes c (level i) (rw i))
    {ps : List ℕ} {i : ℕ} {t : RwLoop} (hlayout : fs.su.Layout) (hpos : WritePos c sa)
    (hroom : sa.boff + width 128 (forestFrom level i ps) ≤ maxBlocks)
    (hacc : Accounts fs.su fs.disk fun n => refs Block.ptrs fs.disk (forestFrom level i ps) n + rest n)
    (h : rwPtrs rw i ps sa fs = .ok t) :
    WriteResult c (forestFrom level i ps) sa.boff fs t.ret (forestFrom level i t.ptrs) t.sa t.fs := by
  induction ps generalizing i sa fs rest t with
  | nil =>
    cases h
    exact WriteResult.nil hpos rfl
  | cons p ps ih =>
    obtain ⟨r, -, -, hfirst, hcases⟩ := rwPtrs_cons_cases hrw hlayout hpos hroom hacc h
    rw [forestFrom] at hacc ⊢
    obtain ⟨hret, rfl⟩ | ⟨hret, t', hloop, rfl, hboff, hlayout', hroom'⟩ := hcases
    · exact hfirst.cons_stop hlayout hacc hret
    · rw [hret] at hfirst
      have hrest := ih hlayout' hfirst.pos hroom' (hfirst.accounts_rest hlayout hacc) hloop
      rw [hboff] at hrest
      exact hfirst.cons hlayout hacc hrest

/-- What one level of the recursion does in a write, `below` being the recursive call: it skips the
tree, finds no free block, or enters the block of the pointer. -/
inductive WriteLevel (below : RwFn) (p : ℕ) (sa : ShareArg) (fs : Fs) : ℕ → RwOut → Prop
  | skip {l : ℕ} (hskip : ¬(sa.boff ≤ sa.eblock ∧ sa.sblock < sa.boff + 128 ^ l)) :
    WriteLevel below p sa fs l ⟨0, p, { sa with
      boff := sa.boff + 128 ^ l
      off := u32 (sa.off + u32 (sub32 (sa.boff + 128 ^ l) sa.boff * blockSize)) }, fs⟩
  | outOfBlocks {l : ℕ} (hvisit : sa.boff ≤ sa.eblock ∧ sa.sblock < sa.boff + 128 ^ l) (hp : p = 0)
      (hfree : freeBlocks fs.su fs.disk = []) : WriteLevel below p sa fs l ⟨-1, 0, sa, fs⟩
  | data {q : ℕ} {fs₁ : Fs} (hvisit : sa.boff ≤ sa.eblock ∧ sa.sblock < sa.boff + 1)
    (hprep : Prepared fs 0 p q fs₁) :
    WriteLevel below p sa fs 0 (rwData (sa.boff + 1) q sa fs₁)
  | indirect {l q : ℕ} {fs₁ fs' : Fs} {t : RwLoop} {ret : ℤ}
      (hvisit : sa.boff ≤ sa.eblock ∧ sa.sblock < sa.boff + 128 ^ (l + 1))
      (hprep : Prepared fs (l + 1) p q fs₁)
      (hloop : rwPtrs (fun _ => below) 0 (fs₁.disk q).ptrs sa fs₁ = .ok t) (hret : ret = 0 ↔ t.ret = 0)
      (hfs : t.sa.w = true → fs' = t.fs.diskWrite q (.ofPtrs t.ptrs)) :
    WriteLevel below p sa fs (l + 1) ⟨ret, q, t.sa, fs'⟩

/-- The body of the traversal goes through one of the cases of a level. -/
theorem writeLevel_rwBody {below : RwFn} {r : RwOut} (hl : l ≤ 2) (hlayout : fs.su.Layout)
    (hw : sa.w = true) (hroom : sa.boff + 128 ^ l ≤ maxBlocks)
    (hacc : Accounts fs.su fs.disk fun n => refs Block.ptrs fs.disk [(l, p)] n + rest n)
    (h : rwBody bitmapAlloc below l p sa fs = .ok r) : WriteLevel below p sa fs l r := by
  simp only [rwBody, eblock_eq hl hroom] at h
  by_cases hvisit : sa.boff ≤ sa.eblock ∧ sa.sblock < sa.boff + 128 ^ l
  · rw [if_neg (not_not_intro hvisit), if_pos hw, bind_eq_ok] at h
    obtain ⟨⟨q, fs₁⟩, halloc, h⟩ := h
    rcases rwAlloc_cases hlayout hacc halloc with ⟨rfl, rfl, hfs, hfree⟩ | ⟨hq, hprep⟩
    · cases hfs
      rw [if_pos rfl] at h
      cases h
      exact .outOfBlocks hvisit rfl hfree
    · rw [if_neg hq] at h
      dsimp only at hprep h
      cases l with
      | zero =>
        rw [if_pos rfl] at h
        cases h
        exact .data hvisit hprep
      | succ m =>
        rw [if_neg (Nat.succ_ne_zero m), rwIndirect, bind_eq_ok] at h
        obtain ⟨t, hloop, h⟩ := h
        split at h
        · rename_i hret
          cases h
          exact .indirect hvisit hprep hloop (by simp [hret]) fun _ => rfl
        · rename_i hret
          split at h
          · cases h
            exact .indirect hvisit hprep hloop (by simp [hret]) fun _ => rfl
          · rename_i hw'
            cases h
            exact .indirect hvisit hprep hloop (by simp [hret]) fun hw => absurd hw hw'
  · rw [if_pos hvisit] at h
    cases h
    exact .skip hvisit

/-- The loop over the pointers of an indirect block may start. -/
theorem Prepared.row (hprep : Prepared fs (l + 1) p q fs₁) (hlayout : fs.su.Layout)
    (hroom : sa.boff + 128 ^ (l + 1) ≤ maxBlocks)
    (hacc : Accounts fs.su fs.disk fun n => refs Block.ptrs fs.disk [(l + 1, p)] n + rest n) :
    fs₁.su.Layout ∧
      sa.boff + width 128 (forestFrom (fun _ => l) 0 (fs₁.disk q).ptrs) ≤ maxBlocks ∧
      Accounts fs₁.su fs₁.disk fun n => refs Block.ptrs fs₁.disk
        (forestFrom (fun _ => l) 0 (fs₁.disk q).ptrs) n +
        ((if n = q then 1 else 0) + rest n) := by
  have hsu : fs₁.su = fs.su := by rw [hprep.same]
  rw [forestFrom_const, width_row, Block.ptrs_length, ← pow_succ']
  exact ⟨hsu ▸ hlayout, hroom, hprep.accounts hacc⟩

/-- One level of the recursion. -/
theorem writes_rwBody (hvalid : c.Valid) {below : RwFn} (hl : l ≤ 2)
    (hbelow : ∀ m, l = m + 1 → Writes c m below) : Writes c l (rwBody bitmapAlloc below l) := by
  intro p sa fs rest r hlayout hpos hroom hacc h
  cases writeLevel_rwBody hl hlayout hpos.w hroom hacc h with
  | skip hskip => exact WriteResult.skip hvalid hpos hroom hskip
  | outOfBlocks hvisit hp hfree =>
    subst hp
    exact WriteResult.outOfBlocks hpos hvisit hfree
  | data hvisit hprep => exact WriteResult.dataBlock hlayout hvalid hpos hvisit hprep
  | @indirect m q fs₁ _ t _ hvisit hprep hloop hret hfs =>
    obtain ⟨hlayout₁, hroom₁, hacc₁⟩ := hprep.row hlayout hroom hacc
    have heffect := WriteResult.loop (fun _ => hbelow m rfl) hlayout₁ hpos hroom₁ hacc₁ hloop
    rw [forestFrom_const, forestFrom_const] at heffect
    rw [hpos.eblock, hpos.sblock] at hvisit
    rw [hfs heffect.pos.w]
    exact heffect.indirectBlock hlayout hvisit hacc hprep hret

/-- `recursive_rw` has the effect of a write on a tree of any level. -/
theorem writes_recursiveRw (hvalid : c.Valid) (hl : l ≤ 2) :
    Writes c l (recursiveRw bitmapAlloc l) := by
  induction l with
  | zero => exact writes_rwBody hvalid hl (by simp)
  | succ l ih =>
    apply writes_rwBody hvalid hl
    intro m hm
    cases hm
    exact ih (by omega)

end Hobby386
