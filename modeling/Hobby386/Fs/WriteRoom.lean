import Hobby386.Lib.PointerCells
import Hobby386.Fs.WriteNodes

/-!
# The room a write leaves

A write keeps every pointer that is not null and takes one free block for every null pointer it
fills. So for file blocks at or behind the end of the write the null pointers left and the free
blocks left go down by the same number: whether there is room for a part of a file does not depend
on how much of it has been written already.
-/

namespace Hobby386

open PointerForest

/-! ## The pointers that stay -/

/-- Every pointer of the forest that is not null is the same afterwards. -/
def NodesKept (F : Forest) (B : ℕ) (fs : Fs) (F' : Forest) (fs' : Fs) : Prop :=
  ∀ h k, B ≤ k → node Block.ptrs 128 fs.disk h F B k ≠ 0 →
    node Block.ptrs 128 fs'.disk h F' B k = node Block.ptrs 128 fs.disk h F B k

section Sequence

variable {c : WriteRequest} {F F' : Forest} {t t' : ℕ × ℕ} {B : ℕ} {fs fs₁ fs₂ : Fs} {ret : ℤ}
  {sa₁ sa₂ : ShareArg} {rest : ℕ → ℕ}

/-- A write that stops in the first tree keeps the pointers of the others. -/
theorem NodesKept.cons_stop (hlayout : fs.su.Layout)
    (hacc : Accounts fs.su fs.disk fun n => refs Block.ptrs fs.disk (t :: F) n + rest n)
    (h₁ : WriteResult c [t] B fs ret [t'] sa₁ fs₁) (hkept : NodesKept [t] B fs [t'] fs₁) :
    NodesKept (t :: F) B fs (t' :: F) fs₁ := by
  have hrest (m : ℕ) (hm : 0 < refs Block.ptrs fs.disk F m) := h₁.frame_rest hlayout hacc hm
  have hheight : t'.1 = t.1 := by simpa using h₁.heights
  intro h k hk hne
  rcases Nat.lt_or_ge k (B + 128 ^ t.1) with hlt | hge
  · rw [node_head hlt] at hne ⊢
    rw [node_head (F := F) (by rwa [hheight]), hkept h k hk hne]
  · rw [node_tail hge] at hne ⊢
    rw [node_tail (by rwa [hheight]), hheight, node_frame Block.ptrs_length hrest]

/-- The pointers of a forest are kept when those of the first tree and of the rest are. -/
theorem NodesKept.cons (hlayout : fs.su.Layout)
    (hacc : Accounts fs.su fs.disk fun n => refs Block.ptrs fs.disk (t :: F) n + rest n)
    (h₁ : WriteResult c [t] B fs 0 [t'] sa₁ fs₁)
    (h₂ : WriteResult c F (B + 128 ^ t.1) fs₁ ret F' sa₂ fs₂) (hkept₁ : NodesKept [t] B fs [t'] fs₁)
    (hkept₂ : NodesKept F (B + 128 ^ t.1) fs₁ F' fs₂) : NodesKept (t :: F) B fs (t' :: F') fs₂ := by
  have hsu : fs₁.su = fs.su := by rw [h₁.same]
  have hrest (m : ℕ) (hm : 0 < refs Block.ptrs fs.disk F m) := h₁.frame_rest hlayout hacc hm
  have hfirst (m : ℕ) (hm : 0 < refs Block.ptrs fs₁.disk [t'] m) : fs₂.disk m = fs₁.disk m :=
    h₂.frame_other (hsu ▸ hlayout) (h₁.accounts_rest hlayout hacc) (Nat.add_pos_left hm _)
  have hheight : t'.1 = t.1 := by simpa using h₁.heights
  intro h k hk hne
  rcases Nat.lt_or_ge k (B + 128 ^ t.1) with hlt | hge
  · rw [node_head hlt] at hne ⊢
    rw [node_head (F := F') (by rwa [hheight]), node_frame Block.ptrs_length hfirst, hkept₁ h k hk hne]
  · rw [node_tail hge, ← node_frame Block.ptrs_length hrest] at hne ⊢
    rw [node_tail (by rwa [hheight]), hheight, hkept₂ h k hge hne]

end Sequence

variable {c : WriteRequest} {l p q : ℕ} {fs fs₁ fs' : Fs} {sa : ShareArg} {rest : ℕ → ℕ}

/-- Nothing has been written. -/
theorem NodesKept.refl (F : Forest) (B : ℕ) (fs : Fs) : NodesKept F B fs F fs := fun _ _ _ _ => rfl

/-- The data block branch keeps a pointer that it has found. -/
theorem NodesKept.dataBlock {B : ℕ} (hprep : Prepared fs 0 p q fs₁) {fs₂ : Fs} :
    NodesKept [(0, p)] B fs [(0, q)] fs₂ := by
  intro h k _ hne
  rw [node_leaf] at hne ⊢
  split at hne
  · rename_i hin
    rw [node_leaf, if_pos hin, if_pos hin, (hprep.old hne).1]
  · exact absurd rfl hne

/-- The indirect block branch keeps the pointer to the block, and below it what the loop keeps. -/
theorem NodesKept.indirectBlock {B : ℕ} (hprep : Prepared fs (l + 1) p q fs₁) {ps : List ℕ}
    {fs₂ fs₃ : Fs} (hnode : ∀ h k, h ≠ l + 1 → node Block.ptrs 128 fs₃.disk h [(l + 1, q)] B k =
      node Block.ptrs 128 fs₂.disk h (row l ps) B k)
    (hloop : NodesKept (row l (fs₁.disk q).ptrs) B fs₁ (row l ps) fs₂) :
    NodesKept [(l + 1, p)] B fs [(l + 1, q)] fs₃ := by
  intro h k hk hne
  have hp : p ≠ 0 := by
    rintro rfl
    exact hne node_null
  obtain ⟨rfl, rfl⟩ := hprep.old hp
  by_cases hh : h = l + 1
  · subst hh
    rcases Nat.lt_or_ge k (B + 128 ^ (l + 1)) with hlt | hge
    · rw [node_root hlt, node_root hlt]
    · exact absurd (node_eq_zero (by simpa using hge)) hne
  · have hold : node Block.ptrs 128 fs₁.disk h [(l + 1, q)] B k =
        node Block.ptrs 128 fs₁.disk h (row l (fs₁.disk q).ptrs) B k :=
      node_node (Block.ptrs_length _) hp hh
    rw [hold] at hne ⊢
    rw [hnode h k hh, hloop h k hk hne]

/-! ## The recursion -/

/-- A call at level `l` keeps the pointers of the tree it is given. -/
def KeepsNodes (c : WriteRequest) (l : ℕ) (rw : RwFn) : Prop :=
  ∀ (p : ℕ) (sa : ShareArg) (fs : Fs) (rest : ℕ → ℕ) (r : RwOut), fs.su.Layout → WritePos c sa →
    sa.boff + 128 ^ l ≤ maxBlocks →
    (Accounts fs.su fs.disk fun n => refs Block.ptrs fs.disk [(l, p)] n + rest n) →
    rw p sa fs = .ok r → NodesKept [(l, p)] sa.boff fs [(l, r.pp)] r.fs

/-- A loop over pointers keeps the pointers of their forest. -/
theorem NodesKept.loop {rw : ℕ → RwFn} {level : ℕ → ℕ} (hwrites : ∀ i, Writes c (level i) (rw i))
    (hrw : ∀ i, KeepsNodes c (level i) (rw i)) {ps : List ℕ} {i : ℕ} {t : RwLoop}
    (hlayout : fs.su.Layout) (hpos : WritePos c sa)
    (hroom : sa.boff + width 128 (forestFrom level i ps) ≤ maxBlocks)
    (hacc : Accounts fs.su fs.disk fun n => refs Block.ptrs fs.disk (forestFrom level i ps) n + rest
    n) (h : rwPtrs rw i ps sa fs = .ok t) :
    NodesKept (forestFrom level i ps) sa.boff fs (forestFrom level i t.ptrs) t.fs := by
  induction ps generalizing i sa fs rest t with
  | nil =>
    cases h
    exact NodesKept.refl _ _ _
  | cons p ps ih =>
    obtain ⟨r, hcall, hroom₁, hfirst, hcases⟩ := rwPtrs_cons_cases hwrites hlayout hpos hroom hacc h
    rw [forestFrom] at hacc ⊢
    have hkept := hrw i p sa fs _ r hlayout hpos hroom₁ hacc.split_head hcall
    obtain ⟨-, rfl⟩ | ⟨hret, t', hloop, rfl, hboff, hlayout', hroom'⟩ := hcases
    · exact hkept.cons_stop hlayout hacc hfirst
    · rw [hret] at hfirst
      have hacc' := hfirst.accounts_rest hlayout hacc
      have hrest := WriteResult.loop hwrites hlayout' hfirst.pos hroom' hacc' hloop
      have hlater := ih hlayout' hfirst.pos hroom' hacc' hloop
      rw [hboff] at hrest hlater
      exact hkept.cons hlayout hacc hfirst hrest hlater

/-- One level of the recursion. -/
theorem keepsNodes_rwBody {below : RwFn} (hl : l ≤ 2)
    (hwrites : ∀ m, l = m + 1 → Writes c m below) (hbelow : ∀ m, l = m + 1 → KeepsNodes c m below) :
    KeepsNodes c l (rwBody bitmapAlloc below l) := by
  intro p sa fs rest r hlayout hpos hroom hacc h
  cases writeLevel_rwBody hl hlayout hpos.w hroom hacc h with
  | skip hskip => exact NodesKept.refl _ _ _
  | outOfBlocks hvisit hp hfree =>
    subst hp
    exact NodesKept.refl _ _ _
  | data hvisit hprep =>
    rw [rwData, if_pos hpos.w]
    exact NodesKept.dataBlock hprep
  | @indirect m q fs₁ _ t _ hvisit hprep hloop hret hfs =>
    obtain ⟨hlayout₁, hroom₁, hacc₁⟩ := hprep.row hlayout hroom hacc
    have heffect := WriteResult.loop (fun _ => hwrites m rfl) hlayout₁ hpos hroom₁ hacc₁ hloop
    have hkept := NodesKept.loop (fun _ => hwrites m rfl) (fun _ => hbelow m rfl) hlayout₁ hpos hroom₁
      hacc₁ hloop
    rw [forestFrom_const, forestFrom_const] at heffect hkept
    rw [forestFrom_const] at hacc₁
    rw [hfs heffect.pos.w]
    exact hkept.indirectBlock hprep fun h k hh => node_diskWrite hacc₁ (hprep.ne_zero hlayout) heffect hh

/-- `recursive_rw` keeps the pointers of a tree of any level. -/
theorem keepsNodes_recursiveRw (hvalid : c.Valid) (hl : l ≤ 2) :
    KeepsNodes c l (recursiveRw bitmapAlloc l) := by
  induction l with
  | zero => exact keepsNodes_rwBody hl (by simp) (by simp)
  | succ l ih =>
    apply keepsNodes_rwBody hl
    · intro m hm
      cases hm
      exact writes_recursiveRw hvalid (by omega)
    · intro m hm
      cases hm
      exact ih (by omega)

/-- A write keeps the pointers of its inode that are not null. -/
theorem fsWrite_keepsNodes {inum : ℕ} (hwf : WellFormed fs) (halloc : fs.Allocated inum) {buf : Memory}
    {sz : ℤ} {off : ℕ} (hsz : bits32 sz ≤ 0xefffffff) (hoff : off < 4294967296) {r : ℤ × Fs}
    (h : fsWrite fs inum buf sz off = .ok r) {height k : ℕ} (hne : fs.pathBlock inum height k ≠ 0) :
    r.2.pathBlock inum height k = fs.pathBlock inum height k := by
  have hlayout := hwf.layout
  have hinum : inum < 200 := hlayout.ninodes ▸ halloc.1
  have hvalid : (writeRequest buf (bits32 sz) off).Valid := valid_writeRequest hsz
  obtain ⟨t, hloop, hstart, hres, -, di, hfit, -, hptrs, rfl, -⟩ :=
    fsWrite_stored hwf halloc hsz hoff h rfl
  have hacc := hwf.accounts_split halloc
  have hroom : 0 + width 128 (forestFrom getIlevel 0 (fs.dinode inum).ptrs) ≤ maxBlocks := by
    rw [← Dinode.forest, Dinode.width_forest (fs.fits_dinode inum).length, Nat.zero_add]
  have hkept : NodesKept (fs.dinode inum).forest 0 fs (forestFrom getIlevel 0 t.ptrs) t.fs :=
    NodesKept.loop (fun i => writes_recursiveRw hvalid (getIlevel_le i))
      (fun i => keepsNodes_recursiveRw hvalid (getIlevel_le i)) hlayout hstart hroom hacc hloop
  rw [pathBlock_stored hlayout hinum hacc hres hfit hptrs]
  exact hkept height k (Nat.zero_le k) hne

/-! ## Null pointers and free blocks -/

/-- The null pointers on the paths to the file blocks up to `b`. -/
def Fs.nulls (fs : Fs) (inum b : ℕ) : List (ℕ × ℕ) :=
  PointerForest.need Block.ptrs nptrsPerBlock fs.disk 0 b (fs.dinode inum).forest 0

/-- There are free blocks for all null pointers on the paths to the file blocks up to `b`. -/
def Fs.Room (fs : Fs) (inum b : ℕ) : Prop := (fs.nulls inum b).length ≤ (freeBlocks fs.su fs.disk).length

instance (fs : Fs) (inum b : ℕ) : Decidable (fs.Room inum b) := inferInstanceAs (Decidable (_ ≤ _))

section Room

variable {inum n b B : ℕ} (hwf : WellFormed fs) (hwritten : FileWritten fs inum c n fs')
  (hstopped : StoppedAt fs inum c B fs') (hkept : ∀ h k, fs.pathBlock inum h k ≠ 0 →
    fs'.pathBlock inum h k ≠ 0)
  (hb : c.eblock ≤ b)

/-- The null pointers on the paths to the first blocks of a file. -/
theorem mem_nulls_iff {t : ℕ × ℕ} : t ∈ fs.nulls inum b ↔
    t ∈ cells 128 (fs.dinode inum).forest 0 ∧ Overlaps 128 0 b t ∧ fs.pathBlock inum t.1 t.2 = 0 :=
  mem_need_iff (by decide) Block.ptrs_length

include hwf hstopped hkept in
/-- The cells that are null after a write: those that were null and have not been served. -/
theorem pathBlock_eq_zero_iff {t : ℕ × ℕ} (ht : t ∈ cells 128 (fs.dinode inum).forest 0) :
    fs'.pathBlock inum t.1 t.2 = 0 ↔ fs.pathBlock inum t.1 t.2 = 0 ∧
      t ∉ (fs.need inum c).take (freeBlocks fs.su fs.disk).length := by
  have hcover : t.2 ≤ t.2 ∧ t.2 < t.2 + 128 ^ t.1 :=
    ⟨le_rfl, Nat.lt_add_of_pos_right (Nat.pow_pos (by decide))⟩
  rw [FirstFit.served_iff_zip]
  constructor
  · intro hnull
    refine ⟨not_not.mp fun hne => hkept _ _ hne hnull, ?_⟩
    rintro ⟨q, hq⟩
    have hdata := (of_mem_freeBlocks (List.of_mem_zip hq).2).1.1
    have hpos := hwf.layout.sdata
    have hfilled := (hstopped.filled t.1 t.2 q (by omega)).mpr ⟨t.2, hcover, hq⟩
    rw [hnull] at hfilled
    omega
  · rintro ⟨hnull, hnot⟩
    by_contra hne
    obtain ⟨A, hA, hmem⟩ := (hstopped.filled t.1 t.2 _ hne).mp ⟨hnull, rfl⟩
    have hcell := ((mem_need_iff (by decide) Block.ptrs_length).mp (List.of_mem_zip hmem).1).1
    have ht' : (t.1, A) = t := cells_unique hcell ht rfl hA hcover
    rw [ht'] at hmem
    exact hnot ⟨_, hmem⟩

include hwf hwritten hstopped hkept hb in
/-- As many null pointers go as free blocks. -/
theorem length_nulls_written : ∃ m, (fs'.nulls inum b).length + m = (fs.nulls inum b).length ∧
    (freeBlocks fs.su fs'.disk).length + m = (freeBlocks fs.su fs.disk).length := by
  set T := (fs.need inum c).take (freeBlocks fs.su fs.disk).length with hT
  have hheights : (fs'.dinode inum).forest.map Prod.fst = (fs.dinode inum).forest.map Prod.fst :=
    forestFrom_fst getIlevel ((fs'.fits_dinode inum).length.trans (fs.fits_dinode inum).length.symm) 0
  have hnodup : (fs.need inum c).Nodup := need_nodup (by decide) Block.ptrs_length
  have hsub : T ⊆ fs.nulls inum b := fun t ht =>
    need_subset (by decide) Block.ptrs_length (Nat.zero_le _) hb (List.mem_of_mem_take ht)
  refine ⟨T.length, ?_, ?_⟩
  · exact length_need_filled (by decide) Block.ptrs_length hheights
      (hnodup.sublist (List.take_sublist _ _)) hsub
      fun t ht => pathBlock_eq_zero_iff hwf hstopped hkept ht
  · rw [hwritten.free, List.length_drop, hT, List.length_take]
    omega

include hwf hwritten hstopped hkept hb in
/-- A write neither makes nor takes room for the blocks from its end on. -/
theorem room_written : fs'.Room inum b ↔ fs.Room inum b := by
  obtain ⟨m, hnulls, hfree⟩ := length_nulls_written hwf hwritten hstopped hkept hb
  rw [Fs.Room, Fs.Room, show fs'.su = fs.su by rw [hwritten.same]]
  omega

end Room

/-- When the blocks in front of block `b` are mapped, the null pointers up to it are those on its
own path. -/
theorem room_iff_pathNulls {inum b : ℕ} (hmapped : ∀ k < b, fs.fileBlock inum k ≠ 0) :
    fs.Room inum b ↔ (fs.pathNulls inum b).length ≤ (freeBlocks fs.su fs.disk).length := by
  have hperm : (fs.nulls inum b).Perm (fs.pathNulls inum b) := by
    apply (List.perm_ext_iff_of_nodup (need_nodup (by decide) Block.ptrs_length)
      (need_nodup (by decide) Block.ptrs_length)).mpr
    intro t
    refine ⟨fun ht => ?_, fun ht => need_subset (by decide) Block.ptrs_length (Nat.zero_le _) le_rfl ht⟩
    have hpos : 0 < 128 ^ t.1 := Nat.pow_pos (by decide)
    have hfirst : b ≤ t.2 := by
      by_contra hlt
      exact hmapped t.2 (Nat.not_le.mp hlt)
        (lookup_of_mem_need Block.ptrs_length ht le_rfl (Nat.lt_add_of_pos_right hpos))
    obtain ⟨hcell, hover, hnull⟩ := mem_nulls_iff.mp ht
    exact (mem_need_iff (by decide) Block.ptrs_length).mpr ⟨hcell, ⟨hover.1, by omega⟩, hnull⟩
  rw [Fs.Room, hperm.length_eq]

end Hobby386
