import Hobby386.Lib.PointerPaths
import Hobby386.Fs.WriteFile

/-!
# Where a write puts the blocks it takes

Every null pointer on a path to the block range of a write gets one of the free blocks, in
preorder. This is stated for pointers of every height, so that it says for each block that a
write takes which pointer leads to it. A write that runs out of blocks stops at the first null
pointer for which none is left.
-/

namespace Hobby386

open PointerForest

/-- The null pointers of a forest that a write has to fill. -/
abbrev WriteRequest.needs (c : WriteRequest) (fs : Fs) (F : Forest) (B : ℕ) : List (ℕ × ℕ) :=
  need Block.ptrs 128 fs.disk c.sblock c.eblock F B

/-- The pointers that are null before a write on the forest `F` at file block `B` and lead to a block
after it, and the pointer at which the write stops. -/
structure NodesFilled (c : WriteRequest) (F : Forest) (B : ℕ) (fs : Fs) (ret : ℤ) (F' : Forest)
    (sa' : ShareArg) (fs' : Fs) : Prop where
  stopped : ret ≠ 0 → ∃ h, (c.needs fs F B)[(freeBlocks fs.su fs.disk).length]? = some (h, sa'.boff)
  filled : ∀ h k q, B ≤ k → q ≠ 0 →
    (node Block.ptrs 128 fs.disk h F B k = 0 ∧ node Block.ptrs 128 fs'.disk h F' B k = q ↔
      ∃ A, (A ≤ k ∧ k < A + 128 ^ h) ∧ ((h, A), q) ∈ (c.needs fs F B).zip (freeBlocks fs.su fs.disk))

section Sequence

variable {c : WriteRequest} {F F' : Forest} {t t' : ℕ × ℕ} {B : ℕ} {fs fs₁ fs₂ : Fs} {ret : ℤ}
  {sa sa₁ sa₂ : ShareArg} {rest : ℕ → ℕ}

/-- An empty forest fills nothing. -/
theorem NodesFilled.nil : NodesFilled c [] B fs 0 [] sa fs where
  stopped := fun h => absurd rfl h
  filled := fun h k q _ hq => iff_of_false (fun hn => hq hn.2.symm) (by simp)

/-- A tree that no pointer is needed for. -/
theorem not_filled_head {F : Forest} {h A q k : ℕ} {free : List ℕ} (hA : A ≤ k ∧ k < A + 128 ^ h)
    (hge : B + width 128 F ≤ k) : ((h, A), q) ∉ (c.needs fs F B).zip free := by
  intro hmem
  have hend := (need_inside Block.ptrs_length (List.of_mem_zip hmem).1).2
  simp only at hend
  omega

/-- A tree behind the position that no pointer is needed for. -/
theorem not_filled_tail {F : Forest} {h A q k : ℕ} {free : List ℕ} (hA : A ≤ k ∧ k < A + 128 ^ h)
    (hlt : k < B) : ((h, A), q) ∉ (c.needs fs F B).zip free := by
  intro hmem
  have hrange := need_range_of_mem_zip (by decide) Block.ptrs_length hmem
  omega

/-- When the first tree runs out of free blocks, no pointer of the others is filled. -/
theorem NodesFilled.cons_stop (hlayout : fs.su.Layout)
    (hacc : Accounts fs.su fs.disk fun n => refs Block.ptrs fs.disk (t :: F) n + rest n)
    (h₁ : WriteResult c [t] B fs ret [t'] sa₁ fs₁) (hret : ret ≠ 0)
    (hnodes : NodesFilled c [t] B fs ret [t'] sa₁ fs₁) :
    NodesFilled c (t :: F) B fs ret (t' :: F) sa₁ fs₁ := by
  have hrest (m : ℕ) (hm : 0 < refs Block.ptrs fs.disk F m) := h₁.frame_rest hlayout hacc hm
  have hshort := (h₁.stopped hret).2.2
  have hheight : t'.1 = t.1 := by simpa using h₁.heights
  have hzip : (c.needs fs (t :: F) B).zip (freeBlocks fs.su fs.disk) =
      (c.needs fs [t] B).zip (freeBlocks fs.su fs.disk) := by
    rw [WriteRequest.needs, need_split, FirstFit.zip_append_left, List.drop_of_length_le (by omega),
      List.zip_nil_right, List.append_nil]
  constructor
  · intro _
    obtain ⟨h, hstop⟩ := hnodes.stopped hret
    refine ⟨h, ?_⟩
    rw [WriteRequest.needs, need_split, List.getElem?_append_left hshort, hstop]
  · intro h k q hk hq
    rw [hzip]
    rcases Nat.lt_or_ge k (B + 128 ^ t.1) with hlt | hge
    · rw [node_head hlt, node_head (F := F) (by rwa [hheight])]
      exact hnodes.filled h k q hk hq
    · rw [node_tail hge, node_tail (by rwa [hheight]), hheight, node_frame Block.ptrs_length hrest]
      refine iff_of_false (fun hn => hq (hn.2.symm.trans hn.1)) ?_
      rintro ⟨A, hA, hmem⟩
      exact not_filled_head hA (by simpa using hge) hmem

/-- The pointers filled in the first tree and in the others. -/
theorem NodesFilled.cons (hlayout : fs.su.Layout)
    (hacc : Accounts fs.su fs.disk fun n => refs Block.ptrs fs.disk (t :: F) n + rest n)
    (h₁ : WriteResult c [t] B fs 0 [t'] sa₁ fs₁)
    (h₂ : WriteResult c F (B + 128 ^ t.1) fs₁ ret F' sa₂ fs₂)
    (hnodes₁ : NodesFilled c [t] B fs 0 [t'] sa₁ fs₁)
    (hnodes₂ : NodesFilled c F (B + 128 ^ t.1) fs₁ ret F' sa₂ fs₂) :
    NodesFilled c (t :: F) B fs ret (t' :: F') sa₂ fs₂ := by
  have hsu : fs₁.su = fs.su := by rw [h₁.same]
  have hrest (m : ℕ) (hm : 0 < refs Block.ptrs fs.disk F m) := h₁.frame_rest hlayout hacc hm
  have hfirst (m : ℕ) (hm : 0 < refs Block.ptrs fs₁.disk [t'] m) : fs₂.disk m = fs₁.disk m :=
    h₂.frame_other (hsu ▸ hlayout) (h₁.accounts_rest hlayout hacc) (Nat.add_pos_left hm _)
  have hheight : t'.1 = t.1 := by simpa using h₁.heights
  have hlong := (h₁.finished rfl).2
  have hneed : c.needs fs₁ F (B + 128 ^ t.1) = c.needs fs F (B + 128 ^ t.1) := need_frame hrest _
  have hzip : (c.needs fs (t :: F) B).zip (freeBlocks fs.su fs.disk) =
      (c.needs fs [t] B).zip (freeBlocks fs.su fs.disk) ++
        (c.needs fs F (B + 128 ^ t.1)).zip (freeBlocks fs.su fs₁.disk) := by
    rw [WriteRequest.needs, need_split, FirstFit.zip_append_left, h₁.free]
  obtain ⟨hstopped, hfilled⟩ := hnodes₂
  rw [hneed, hsu] at hstopped hfilled
  constructor
  · intro hret
    obtain ⟨h, hstop⟩ := hstopped hret
    refine ⟨h, ?_⟩
    rw [h₁.free, List.length_drop] at hstop
    rw [WriteRequest.needs, need_split, List.getElem?_append_right hlong, hstop]
  · intro h k q hk hq
    simp only [hzip, List.mem_append]
    rcases Nat.lt_or_ge k (B + 128 ^ t.1) with hlt | hge
    · rw [node_head hlt, node_head (F := F') (by rwa [hheight]), node_frame Block.ptrs_length hfirst,
        hnodes₁.filled h k q hk hq]
      refine exists_congr fun A => and_congr_right fun hA => ⟨Or.inl, fun hmem => hmem.resolve_right ?_⟩
      rw [← hneed]
      exact not_filled_tail hA hlt
    · rw [node_tail hge, node_tail (by rwa [hheight]), hheight, ← node_frame Block.ptrs_length hrest,
        hfilled h k q hge hq]
      refine exists_congr fun A => and_congr_right fun hA => ⟨Or.inr, fun hmem => hmem.resolve_left ?_⟩
      exact not_filled_head hA (by simpa using hge)

end Sequence

variable {c : WriteRequest} {l p q : ℕ} {fs fs₁ : Fs} {sa : ShareArg} {rest : ℕ → ℕ}

/-! ## Single trees -/

/-- The skip branch fills nothing. -/
theorem NodesFilled.skip {B : ℕ} (hskip : ¬(B ≤ c.eblock ∧ c.sblock < B + 128 ^ l)) {sa' : ShareArg} :
    NodesFilled c [(l, p)] B fs 0 [(l, p)] sa' fs where
  stopped := fun h => absurd rfl h
  filled := fun h k q _ hq => by
    have hneed : c.needs fs [(l, p)] B = [] := need_skip hskip
    rw [hneed, List.zip_nil_left]
    exact iff_of_false (fun hn => hq (hn.2.symm.trans hn.1)) (by simp)

/-- The failing allocation stops at the root of its tree. -/
theorem NodesFilled.outOfBlocks (hvisit : sa.boff ≤ c.eblock ∧ c.sblock < sa.boff + 128 ^ l)
    (hfree : freeBlocks fs.su fs.disk = []) :
    NodesFilled c [(l, 0)] sa.boff fs (-1) [(l, 0)] sa fs where
  stopped := fun _ => by
    obtain ⟨tail, htail⟩ : ∃ tail, c.needs fs [(l, 0)] sa.boff = (l, sa.boff) :: tail := need_null hvisit
    exact ⟨l, by rw [hfree, htail]; rfl⟩
  filled := fun h k q _ hq => by
    rw [hfree, List.zip_nil_right]
    exact iff_of_false (fun hn => hq (hn.2.symm.trans hn.1)) (by simp)

/-- The data block branch fills a null pointer with the block that was taken. -/
theorem NodesFilled.dataBlock {B : ℕ} (hvisit : B ≤ c.eblock ∧ c.sblock < B + 1)
    (hprep : Prepared fs 0 p q fs₁) {sa' : ShareArg} {fs' : Fs} :
    NodesFilled c [(0, p)] B fs 0 [(0, q)] sa' fs' where
  stopped := fun h => absurd rfl h
  filled := fun h k a hk ha => by
    have hneed : c.needs fs [(0, p)] B = if p = 0 then [(0, B)] else [] := need_leaf hvisit
    rw [hneed, node_leaf, node_leaf, hprep.free, newBlocks]
    by_cases hp : p = 0
    · simp only [hp, if_true, List.cons_append, List.nil_append, List.zip_cons_cons, List.zip_nil_left,
        List.mem_singleton, Prod.mk.injEq, ite_self, true_and]
      constructor
      · intro hnode
        split at hnode
        · rename_i hin
          obtain ⟨hlt, rfl⟩ := hin
          exact ⟨B, ⟨hk, hlt⟩, ⟨rfl, rfl⟩, hnode.symm⟩
        · exact absurd hnode.symm ha
      · rintro ⟨A, ⟨-, hlt⟩, ⟨rfl, rfl⟩, rfl⟩
        rw [if_pos ⟨hlt, rfl⟩]
    · rw [(hprep.old hp).1]
      simp only [hp, if_false, List.zip_nil_left, List.not_mem_nil, and_false, exists_false, iff_false]
      exact fun hn => ha (hn.2.symm.trans hn.1)

/-- The indirect block branch, given what the loop over its pointers fills. -/
theorem NodesFilled.indirectBlock {B : ℕ} (hvisit : B ≤ c.eblock ∧ c.sblock < B + 128 ^ (l + 1))
    (hprep : Prepared fs (l + 1) p q fs₁) {ret ret' : ℤ} {ps : List ℕ} {sa' : ShareArg}
    {fs₂ fs₃ : Fs} (hret : ret' = 0 ↔ ret = 0)
    (hnode : ∀ h k, h ≠ l + 1 → node Block.ptrs 128 fs₃.disk h [(l + 1, q)] B k =
      node Block.ptrs 128 fs₂.disk h (row l ps) B k)
    (hloop : NodesFilled c (row l (fs₁.disk q).ptrs) B fs₁ ret (row l ps) sa' fs₂) :
    NodesFilled c [(l + 1, p)] B fs ret' [(l + 1, q)] sa' fs₃ := by
  have hsu : fs₁.su = fs.su := by rw [hprep.same]
  have hneed : c.needs fs [(l + 1, p)] B =
      (if p = 0 then [(l + 1, B)] else []) ++ c.needs fs₁ (row l (fs₁.disk q).ptrs) B :=
    (hprep.tree c.sblock c.eblock B).2.2 hvisit
  have hzip : (c.needs fs [(l + 1, p)] B).zip (freeBlocks fs.su fs.disk) =
      (if p = 0 then [((l + 1, B), q)] else []) ++
        (c.needs fs₁ (row l (fs₁.disk q).ptrs) B).zip (freeBlocks fs.su fs₁.disk) := by
    rw [hneed, hprep.free, FirstFit.zip_append_left, length_newBlocks, List.drop_left]
    congr 1
    by_cases hp : p = 0 <;> simp [hp, newBlocks]
  have hold {h k : ℕ} (hh : h ≠ l + 1) : node Block.ptrs 128 fs.disk h [(l + 1, p)] B k =
      node Block.ptrs 128 fs₁.disk h (row l (fs₁.disk q).ptrs) B k := by
    have hkids := hprep.kids
    by_cases hp : p = 0
    · rw [hkids, if_pos hp, hp, node_null, node_row_replicate]
    · obtain ⟨rfl, rfl⟩ := hprep.old hp
      rw [node_node (Block.ptrs_length _) hp hh]
  obtain ⟨hstopped, hfilled⟩ := hloop
  rw [hsu] at hstopped hfilled
  constructor
  · intro h
    obtain ⟨height, hstop⟩ := hstopped fun h' => h (hret.mpr h')
    refine ⟨height, ?_⟩
    rw [hneed, hprep.free, List.length_append, ← length_newBlocks (l + 1, B),
      List.getElem?_append_right (Nat.le_add_right _ _), Nat.add_sub_cancel_left, hstop]
  · intro h k a hk ha
    simp only [hzip, List.mem_append]
    by_cases hh : h = l + 1
    · -- the pointer to the indirect block itself
      subst hh
      have hrow : ∀ A, ((l + 1, A), a) ∉
          (c.needs fs₁ (row l (fs₁.disk q).ptrs) B).zip (freeBlocks fs.su fs₁.disk) := fun A hmem =>
        absurd (need_height _ (List.of_mem_zip hmem).1) (by simp)
      simp only [hrow, or_false]
      rcases Nat.lt_or_ge k (B + 128 ^ (l + 1)) with hlt | hge
      · rw [node_root hlt, node_root hlt]
        by_cases hp : p = 0
        · simp only [hp, if_true, true_and, List.mem_singleton, Prod.mk.injEq]
          constructor
          · exact fun h => ⟨B, ⟨hk, hlt⟩, rfl, h.symm⟩
          · rintro ⟨A, -, -, h⟩
            exact h.symm
        · simp [hp]
      · rw [node_eq_zero (by simpa using hge), node_eq_zero (by simpa using hge)]
        refine iff_of_false (fun hn => ha hn.2.symm) ?_
        rintro ⟨A, hA, hmem⟩
        split at hmem
        · simp only [List.mem_singleton, Prod.mk.injEq, true_and] at hmem
          omega
        · simp at hmem
    · rw [hold hh, hnode h k hh, hfilled h k a hk ha]
      refine exists_congr fun A => and_congr_right fun _ => ⟨Or.inr, fun hmem => hmem.resolve_left ?_⟩
      split
      · simp [hh]
      · simp

/-! ## The recursion -/

/-- A call at level `l` fills the null pointers of the tree it is given. -/
def FillsNodes (c : WriteRequest) (l : ℕ) (rw : RwFn) : Prop :=
  ∀ (p : ℕ) (sa : ShareArg) (fs : Fs) (rest : ℕ → ℕ) (r : RwOut), fs.su.Layout → WritePos c sa →
    sa.boff + 128 ^ l ≤ maxBlocks →
    (Accounts fs.su fs.disk fun n => refs Block.ptrs fs.disk [(l, p)] n + rest n) →
    rw p sa fs = .ok r → NodesFilled c [(l, p)] sa.boff fs r.ret [(l, r.pp)] r.sa r.fs

/-- A loop over pointers fills the null pointers of their forest. -/
theorem NodesFilled.loop {rw : ℕ → RwFn} {level : ℕ → ℕ} (hwrites : ∀ i, Writes c (level i) (rw i))
    (hrw : ∀ i, FillsNodes c (level i) (rw i)) {ps : List ℕ} {i : ℕ} {t : RwLoop}
    (hlayout : fs.su.Layout) (hpos : WritePos c sa)
    (hroom : sa.boff + width 128 (forestFrom level i ps) ≤ maxBlocks)
    (hacc : Accounts fs.su fs.disk fun n => refs Block.ptrs fs.disk (forestFrom level i ps) n + rest
    n) (h : rwPtrs rw i ps sa fs = .ok t) :
    NodesFilled c (forestFrom level i ps) sa.boff fs t.ret (forestFrom level i t.ptrs) t.sa t.fs := by
  induction ps generalizing i sa fs rest t with
  | nil =>
    cases h
    exact NodesFilled.nil
  | cons p ps ih =>
    obtain ⟨r, hcall, hroom₁, hfirst, hcases⟩ := rwPtrs_cons_cases hwrites hlayout hpos hroom hacc h
    rw [forestFrom] at hacc ⊢
    have hnodes := hrw i p sa fs _ r hlayout hpos hroom₁ hacc.split_head hcall
    obtain ⟨hret, rfl⟩ | ⟨hret, t', hloop, rfl, hboff, hlayout', hroom'⟩ := hcases
    · exact hnodes.cons_stop hlayout hacc hfirst hret
    · rw [hret] at hfirst hnodes
      have hacc' := hfirst.accounts_rest hlayout hacc
      have hrest := WriteResult.loop hwrites hlayout' hfirst.pos hroom' hacc' hloop
      have hlater := ih hlayout' hfirst.pos hroom' hacc' hloop
      rw [hboff] at hrest hlater
      exact hnodes.cons hlayout hacc hfirst hrest hlater

/-- Below a block that a write has stored stand the pointers stored in it. -/
theorem node_diskWrite {B : ℕ} (hacc : Accounts fs₁.su fs₁.disk fun n =>
      refs Block.ptrs fs₁.disk (row l (fs₁.disk q).ptrs) n + ((if n = q then 1 else 0) + rest n))
    (hq : q ≠ 0) {ret : ℤ} {ps : List ℕ} {sa' : ShareArg} {fs₂ : Fs}
    (hloop : WriteResult c (row l (fs₁.disk q).ptrs) B fs₁ ret (row l ps) sa' fs₂) {h k : ℕ}
    (hh : h ≠ l + 1) : node Block.ptrs 128 (fs₂.diskWrite q (.ofPtrs ps)).disk h [(l + 1, q)] B k =
      node Block.ptrs 128 fs₂.disk h (row l ps) B k := by
  obtain ⟨hlen, hsmall⟩ := hloop.fits_row
  have hqrest : 0 < (if q = q then 1 else 0) + rest q := by simp
  have hqfree : refs Block.ptrs fs₂.disk (row l ps) q = 0 := hloop.disjoint hacc hqrest
  have hkids : ((fs₂.diskWrite q (.ofPtrs ps)).disk q).ptrs = ps := by
    rw [Fs.diskWrite_disk_self, Block.ptrs_ofPtrs hlen hsmall]
  have hbelow (m : ℕ) (hm : 0 < refs Block.ptrs fs₂.disk (row l ps) m) :
      (fs₂.diskWrite q (.ofPtrs ps)).disk m = fs₂.disk m :=
    Fs.diskWrite_disk_of_ne (by rintro rfl; omega)
  rw [node_node (Block.ptrs_length _) hq hh, hkids, node_frame Block.ptrs_length hbelow]

/-- One level of the recursion. -/
theorem fillsNodes_rwBody {below : RwFn} (hl : l ≤ 2)
    (hwrites : ∀ m, l = m + 1 → Writes c m below) (hbelow : ∀ m, l = m + 1 → FillsNodes c m below) :
    FillsNodes c l (rwBody bitmapAlloc below l) := by
  intro p sa fs rest r hlayout hpos hroom hacc h
  cases writeLevel_rwBody hl hlayout hpos.w hroom hacc h with
  | skip hskip =>
    rw [hpos.eblock, hpos.sblock] at hskip
    exact NodesFilled.skip hskip
  | outOfBlocks hvisit hp hfree =>
    subst hp
    rw [hpos.eblock, hpos.sblock] at hvisit
    exact NodesFilled.outOfBlocks hvisit hfree
  | data hvisit hprep =>
    rw [hpos.eblock, hpos.sblock] at hvisit
    rw [rwData, if_pos hpos.w]
    exact NodesFilled.dataBlock hvisit hprep
  | @indirect m q fs₁ _ t _ hvisit hprep hloop hret hfs =>
    obtain ⟨hlayout₁, hroom₁, hacc₁⟩ := hprep.row hlayout hroom hacc
    have heffect := WriteResult.loop (fun _ => hwrites m rfl) hlayout₁ hpos hroom₁ hacc₁ hloop
    have hnodes := NodesFilled.loop (fun _ => hwrites m rfl) (fun _ => hbelow m rfl) hlayout₁ hpos hroom₁
      hacc₁ hloop
    rw [forestFrom_const, forestFrom_const] at heffect hnodes
    rw [forestFrom_const] at hacc₁
    rw [hpos.eblock, hpos.sblock] at hvisit
    rw [hfs heffect.pos.w]
    have hq : q ≠ 0 := hprep.ne_zero hlayout
    exact hnodes.indirectBlock hvisit hprep hret fun h k hh => node_diskWrite hacc₁ hq heffect hh

/-- `recursive_rw` fills the null pointers of a tree of any level. -/
theorem fillsNodes_recursiveRw (hvalid : c.Valid) (hl : l ≤ 2) :
    FillsNodes c l (recursiveRw bitmapAlloc l) := by
  induction l with
  | zero => exact fillsNodes_rwBody hl (by simp) (by simp)
  | succ l ih =>
    apply fillsNodes_rwBody hl
    · intro m hm
      cases hm
      exact writes_recursiveRw hvalid (by omega)
    · intro m hm
      cases hm
      exact ih (by omega)

/-! ## The pointers of a file -/

/-- The pointer of height `h` on the path from an inode to file block `k`: the data block for `h =
0`, the singly- and doubly-indirect block for `h = 1` and `h = 2`, 0 if the path has none. -/
def Fs.pathBlock (fs : Fs) (inum h k : ℕ) : ℕ :=
  node Block.ptrs nptrsPerBlock fs.disk h (fs.dinode inum).forest 0 k

/-- The null pointers on the path to file block `k`, each with its height and first file block. -/
def Fs.pathNulls (fs : Fs) (inum k : ℕ) : List (ℕ × ℕ) :=
  PointerForest.need Block.ptrs nptrsPerBlock fs.disk k k (fs.dinode inum).forest 0

/-- The path to a file block ends at the block. -/
theorem Fs.pathBlock_zero (fs : Fs) (inum k : ℕ) : fs.pathBlock inum 0 k = fs.fileBlock inum k :=
  node_zero Block.ptrs_length

/-- A write that has come to file block `B`, the pointers it has filled, and the pointer at which it has
stopped if it ran out of blocks. -/
structure StoppedAt (fs : Fs) (inum : ℕ) (c : WriteRequest) (B : ℕ) (fs' : Fs) : Prop where
  outcome : B = maxBlocks ∧ (fs.need inum c).length ≤ (freeBlocks fs.su fs.disk).length ∨
    B < maxBlocks ∧ ∃ h, (fs.need inum c)[(freeBlocks fs.su fs.disk).length]? = some (h, B)
  filled : ∀ h k q, q ≠ 0 → (fs.pathBlock inum h k = 0 ∧ fs'.pathBlock inum h k = q ↔
    ∃ A, (A ≤ k ∧ k < A + 128 ^ h) ∧ ((h, A), q) ∈ (fs.need inum c).zip (freeBlocks fs.su fs.disk))

/-- Storing the inode at the end of a write touches no block on its paths. -/
theorem pathBlock_stored {inum : ℕ} (hlayout : fs.su.Layout) (hinum : inum < 200) {ret : ℤ} {ps : List ℕ}
    {sa' : ShareArg} (hacc : Accounts fs.su fs.disk fun n =>
      refs Block.ptrs fs.disk (fs.dinode inum).forest n + rest n)
    (hres : WriteResult c (fs.dinode inum).forest 0 fs ret (forestFrom getIlevel 0 ps) sa' fs₁)
    {di : Dinode} (hfit : di.Fits) (hptrs : di.ptrs = ps) (h k : ℕ) :
    (fs₁.setDinode inum di).pathBlock inum h k =
      node Block.ptrs 128 fs₁.disk h (forestFrom getIlevel 0 ps) 0 k := by
  have hsu : fs₁.su = fs.su := by rw [hres.same]
  have hapart (m : ℕ) (hm : 0 < refs Block.ptrs fs₁.disk (forestFrom getIlevel 0 ps) m) :
      (fs₁.setDinode inum di).disk m = fs₁.disk m := by
    have hlt := hlayout.inodeBlock_lt hinum
    have hdata := (hres.inData hacc hm).1
    exact Fs.setDinode_disk_of_ne (by rw [hsu]; omega)
  rw [Fs.pathBlock, Fs.dinode_setDinode hfit, Dinode.forest, hptrs, node_frame Block.ptrs_length hapart]

/-- What `fs_write` has transferred is what lies in front of the block it has come to. -/
theorem fsWrite_stoppedAt {inum : ℕ} (hwf : WellFormed fs) (halloc : fs.Allocated inum) {buf : Memory}
    {sz : ℤ} {off : ℕ} (hsz : bits32 sz ≤ 0xefffffff) (hoff : off < 4294967296) {r : ℤ × Fs}
    (h : fsWrite fs inum buf sz off = .ok r) {c : WriteRequest}
    (hc : c = writeRequest buf (bits32 sz) off) :
    ∃ B, r.1 = (c.done B : ℕ) ∧ FileWritten fs inum c (c.done B) r.2 ∧ StoppedAt fs inum c B r.2 := by
  have hlayout := hwf.layout
  have hinum : inum < 200 := hlayout.ninodes ▸ halloc.1
  have hvalid : c.Valid := by rw [hc]; exact valid_writeRequest hsz
  obtain ⟨t, hloop, hstart, hres, -, di, hfit, -, hptrs, rfl, hwritten⟩ :=
    fsWrite_stored hwf halloc hsz hoff h hc
  have hacc := hwf.accounts_split halloc
  have hwidth : width 128 (fs.dinode inum).forest = maxBlocks :=
    Dinode.width_forest (fs.fits_dinode inum).length
  have hroom : 0 + width 128 (forestFrom getIlevel 0 (fs.dinode inum).ptrs) ≤ maxBlocks := by
    rw [← Dinode.forest, hwidth, Nat.zero_add]
  have hnodes : NodesFilled c (fs.dinode inum).forest 0 fs t.ret (forestFrom getIlevel 0 t.ptrs)
      t.sa t.fs :=
    NodesFilled.loop (fun i => writes_recursiveRw hvalid (getIlevel_le i))
      (fun i => fillsNodes_recursiveRw hvalid (getIlevel_le i)) hlayout hstart hroom hacc hloop
  refine ⟨t.sa.boff, rfl, hwritten, ?_, fun h k q hq => ?_⟩
  · by_cases hret : t.ret = 0
    · obtain ⟨hboff, hle⟩ := hres.finished hret
      rw [hwidth, Nat.zero_add] at hboff
      exact .inl ⟨hboff, hle⟩
    · have hlt := (hres.stopped hret).2.1
      rw [hwidth, Nat.zero_add] at hlt
      exact .inr ⟨hlt, hnodes.stopped hret⟩
  · rw [pathBlock_stored hlayout hinum hacc hres hfit hptrs]
    exact hnodes.filled h k q (Nat.zero_le k) hq

end Hobby386
