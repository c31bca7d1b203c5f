import Hobby386.Fs.WriteNodes

/-!
# Writes that do nothing

A write that takes no block and does not get past its first file block leaves the disk as it was.
It may still write blocks: every indirect block on its way is stored again, and so is the inode.
-/

namespace Hobby386

open PointerForest

variable {c : WriteRequest} {l p q : ℕ} {fs fs' : Fs} {sa : ShareArg} {rest : ℕ → ℕ}

/-- A call at level `l` that comes to no block behind the first one of the write, and that takes no
block, leaves the file system and the pointer to its tree as they are. -/
def StaysIdle (c : WriteRequest) (l : ℕ) (rw : RwFn) : Prop :=
  ∀ (p : ℕ) (sa : ShareArg) (fs : Fs) (rest : ℕ → ℕ) (r : RwOut), fs.su.Layout → WritePos c sa →
    sa.boff + 128 ^ l ≤ maxBlocks →
    (Accounts fs.su fs.disk fun n => refs Block.ptrs fs.disk [(l, p)] n + rest n) →
    rw p sa fs = .ok r → r.sa.boff ≤ c.sblock →
    freeBlocks fs.su r.fs.disk = freeBlocks fs.su fs.disk → r.pp = p ∧ r.fs = fs

/-- A traversal goes forwards. -/
theorem WriteResult.boff_ge {F F' : Forest} {B : ℕ} {ret : ℤ} {sa' : ShareArg}
    (h : WriteResult c F B fs ret F' sa' fs') : B ≤ sa'.boff := by
  by_cases hret : ret = 0
  · rw [(h.finished hret).1]
    exact Nat.le_add_right _ _
  · exact (h.stopped hret).1

/-- It takes no block if the free blocks are the same at its end. -/
theorem WriteResult.length_free_le {F F' : Forest} {B : ℕ} {ret : ℤ} {sa' : ShareArg}
    (h : WriteResult c F B fs ret F' sa' fs') :
    (freeBlocks fs.su fs'.disk).length ≤ (freeBlocks fs.su fs.disk).length := by
  rw [h.free, List.length_drop]
  exact Nat.sub_le _ _

/-- A loop over pointers that stays idle. -/
theorem rwPtrs_idle {rw : ℕ → RwFn} {level : ℕ → ℕ} (hwrites : ∀ i, Writes c (level i) (rw i))
    (hrw : ∀ i, StaysIdle c (level i) (rw i)) {ps : List ℕ} {i : ℕ} {t : RwLoop} (hlayout : fs.su.Layout)
    (hpos : WritePos c sa) (hroom : sa.boff + width 128 (forestFrom level i ps) ≤ maxBlocks)
    (hacc : Accounts fs.su fs.disk fun n => refs Block.ptrs fs.disk (forestFrom level i ps) n + rest n)
    (h : rwPtrs rw i ps sa fs = .ok t) (hidle : t.sa.boff ≤ c.sblock)
    (hfree : freeBlocks fs.su t.fs.disk = freeBlocks fs.su fs.disk) : t.ptrs = ps ∧ t.fs = fs := by
  induction ps generalizing i sa fs rest t with
  | nil =>
    cases h
    exact ⟨rfl, rfl⟩
  | cons p ps ih =>
    obtain ⟨r, hcall, hroom₁, hfirst, hcases⟩ := rwPtrs_cons_cases hwrites hlayout hpos hroom hacc h
    rw [forestFrom] at hacc
    have hone := hrw i p sa fs _ r hlayout hpos hroom₁ hacc.split_head hcall
    obtain ⟨-, rfl⟩ | ⟨hret, t', hloop, rfl, hboff, hlayout', hroom'⟩ := hcases
    · obtain ⟨hpp, hfs⟩ := hone hidle hfree
      exact ⟨by rw [hpp], hfs⟩
    · rw [hret] at hfirst
      dsimp only at hidle hfree
      have hsu : r.fs.su = fs.su := by rw [hfirst.same]
      have hacc' := hfirst.accounts_rest hlayout hacc
      have hrest := WriteResult.loop hwrites hlayout' hfirst.pos hroom' hacc' hloop
      have hless := hrest.length_free_le
      rw [hsu, hfree] at hless
      have hfree₁ : freeBlocks fs.su r.fs.disk = freeBlocks fs.su fs.disk := by
        have hdrop : freeBlocks fs.su r.fs.disk =
            (freeBlocks fs.su fs.disk).drop (c.needs fs [(level i, p)] sa.boff).length := hfirst.free
        rw [hdrop, List.length_drop] at hless
        rw [hdrop]
        rcases Nat.eq_zero_or_pos (c.needs fs [(level i, p)] sa.boff).length with hnone | hsome
        · rw [hnone, List.drop_zero]
        · rw [List.eq_nil_of_length_eq_zero (show (freeBlocks fs.su fs.disk).length = 0 by omega),
            List.drop_nil]
      obtain ⟨hpp, hfs⟩ := hone (hrest.boff_ge.trans hidle) hfree₁
      rw [hfs] at hloop hlayout' hacc'
      obtain ⟨hps, hfs'⟩ := ih hlayout' hfirst.pos hroom' hacc' hloop hidle hfree
      exact ⟨by rw [hpp, hps], hfs'⟩

/-- One level of the recursion. -/
theorem staysIdle_rwBody {below : RwFn} (hl : l ≤ 2)
    (hwrites : ∀ m, l = m + 1 → Writes c m below) (hbelow : ∀ m, l = m + 1 → StaysIdle c m below) :
    StaysIdle c l (rwBody bitmapAlloc below l) := by
  intro p sa fs rest r hlayout hpos hroom hacc h hidle hfree
  cases writeLevel_rwBody hl hlayout hpos.w hroom hacc h with
  | skip hskip => exact ⟨rfl, rfl⟩
  | outOfBlocks hvisit hp hnone => exact ⟨hp.symm, rfl⟩
  | data hvisit hprep =>
    -- the data block is the first one of the write, and the call comes to the next one
    rw [rwData, if_pos hpos.w] at hidle
    rw [hpos.sblock] at hvisit
    dsimp only at hidle
    omega
  | @indirect m q fs₁ _ t _ hvisit hprep hloop hret hfs =>
    obtain ⟨hlayout₁, hroom₁, hacc₁⟩ := hprep.row hlayout hroom hacc
    have heffect := WriteResult.loop (fun _ => hwrites m rfl) hlayout₁ hpos hroom₁ hacc₁ hloop
    have hsu : fs₁.su = fs.su := by rw [hprep.same]
    have hq : q ≠ fs.su.sbitmap := by
      have hlow := hprep.inData.1
      have hsb := hlayout.sbitmap
      have hsd := hlayout.sdata
      omega
    rw [hfs heffect.pos.w] at hfree ⊢
    rw [freeBlocks_congr (Fs.diskWrite_disk_of_ne hq.symm)] at hfree
    have hless := heffect.length_free_le
    rw [hsu, hfree, hprep.free, List.length_append] at hless
    have hp : p ≠ 0 := by
      rintro rfl
      rw [newBlocks, if_pos rfl, List.length_singleton] at hless
      omega
    obtain ⟨rfl, rfl⟩ := hprep.old hp
    obtain ⟨hps, ht⟩ := rwPtrs_idle (fun _ => hwrites m rfl) (fun _ => hbelow m rfl) hlayout₁ hpos
      hroom₁ hacc₁ hloop hidle hfree
    rw [ht, hps, Block.ofPtrs_ptrs]
    exact ⟨rfl, Fs.diskWrite_diskRead _ _⟩

/-- `recursive_rw` stays idle at every level. -/
theorem staysIdle_recursiveRw (hvalid : c.Valid) (hl : l ≤ 2) :
    StaysIdle c l (recursiveRw bitmapAlloc l) := by
  induction l with
  | zero => exact staysIdle_rwBody hl (by simp) (by simp)
  | succ l ih =>
    apply staysIdle_rwBody hl
    · intro m hm
      cases hm
      exact writes_recursiveRw hvalid (by omega)
    · intro m hm
      cases hm
      exact ih (by omega)

/-! ## Storing an inode again -/

/-- Storing back the inode just read restores the block. -/
theorem Block.setInode_inode (b : Block) (j : ℕ) : b.setInode j (b.inode j) = b := by
  apply Block.ext_get
  intro i hi
  rw [Block.setInode, Block.get_ofFn _ hi]
  split
  · rename_i hj
    rw [Block.inode, Dinode.bytes_ofBytes _ _ (Nat.mod_lt _ (by decide)), ← hj, Nat.div_add_mod]
  · rfl

/-- Storing an inode as it is changes nothing. -/
theorem Fs.setDinode_dinode (fs : Fs) (i : ℕ) : fs.setDinode i (fs.dinode i) = fs := by
  rw [Fs.setDinode, Fs.dinode, Block.setInode_inode]
  exact Fs.diskWrite_diskRead _ _

/-- Of two inodes stored in one place the second remains. -/
theorem Fs.setDinode_setDinode (fs : Fs) (i : ℕ) (di di' : Dinode) :
    (fs.setDinode i di).setDinode i di' = fs.setDinode i di' := by
  have hblock (b : Block) (j : ℕ) : (b.setInode j di).setInode j di' = b.setInode j di' := by
    apply Block.ext_get
    intro a ha
    rw [Block.setInode, Block.setInode, Block.setInode, Block.get_ofFn _ ha, Block.get_ofFn _ ha,
      Block.get_ofFn _ ha]
    split <;> rfl
  rw [Fs.setDinode, Fs.setDinode_su, Fs.setDinode, Fs.diskWrite_disk_self, hblock, Fs.setDinode,
    Fs.diskWrite, Fs.diskWrite, Fs.diskWrite]
  simp only [Function.update_idem]

/-- A write up to the end of a file, or into it, that stores no byte and takes no block changes
nothing. -/
theorem fsWrite_idle {inum : ℕ} (hwf : WellFormed fs) (halloc : fs.Allocated inum) {buf : Memory}
    {sz : ℤ} {off : ℕ} (hsz : bits32 sz ≤ 0xefffffff) (hpos : 0 < bits32 sz) (hoff : off < 4294967296)
    (hend : off ≤ (fs.dinode inum).size) {fs' : Fs} (h : fsWrite fs inum buf sz off = .ok (0, fs'))
    (hfree : freeBlocks fs.su fs'.disk = freeBlocks fs.su fs.disk) : fs' = fs := by
  have hlayout := hwf.layout
  have hinum : inum < 200 := hlayout.ninodes ▸ halloc.1
  set c := writeRequest buf (bits32 sz) off with hc
  have hvalid : c.Valid := valid_writeRequest hsz
  obtain ⟨t, hloop, hstart, hres, -, di, hfit, -, hptrs, hr, hwritten⟩ :=
    fsWrite_stored hwf halloc hsz hoff h hc
  rw [Prod.mk.injEq] at hr
  obtain ⟨hdone, rfl⟩ := hr
  have hdone : c.done t.sa.boff = 0 := (Int.ofNat_inj.mp hdone).symm
  have hacc := hwf.accounts_split halloc
  have hroom : 0 + width 128 (forestFrom getIlevel 0 (fs.dinode inum).ptrs) ≤ maxBlocks := by
    rw [← Dinode.forest, Dinode.width_forest (fs.fits_dinode inum).length, Nat.zero_add]
  have hfirst : t.sa.boff ≤ c.sblock := by
    have hmin : min (bits32 sz) (512 * t.sa.boff - off) = 0 := hdone
    have hsblock : c.sblock = off / 512 := rfl
    omega
  have hsu : t.fs.su = fs.su := by rw [hres.same]
  have hlt := hlayout.inodeBlock_lt hinum
  rw [freeBlocks_congr (Fs.setDinode_disk_of_ne (by rw [hsu]; omega))] at hfree
  obtain ⟨hps, ht⟩ := rwPtrs_idle (fun i => writes_recursiveRw hvalid (getIlevel_le i))
    (fun i => staysIdle_recursiveRw hvalid (getIlevel_le i)) hlayout hstart hroom hacc hloop hfirst hfree
  have hdi : di = fs.dinode inum := by
    have hinode := hwritten.inode
    have hsize : max (fs.dinode inum).size (c.off + 0) = (fs.dinode inum).size := Nat.max_eq_left hend
    rw [Fs.dinode_setDinode hfit, hdone, hsize, hptrs, hps] at hinode
    exact hinode
  rw [hdi, ht, Fs.setDinode_dinode]

end Hobby386
