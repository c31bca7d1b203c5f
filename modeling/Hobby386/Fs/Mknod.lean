import Hobby386.Fs.Lookup
import Hobby386.Fs.Returns

/-!
# The effect of `fs_mknod`

A call that gets past its checks takes the first free inode, appends an entry to the parent
directory, and either counts the link or frees the inode again. In both cases the result is a
well-formed file system in which only the parent and the new inode have changed.
-/

namespace Hobby386

open PointerForest

variable {fs fs' : Fs}

/-! ## Updating an inode without blocks -/

/-- An inode without pointers. -/
def Dinode.Bare (di : Dinode) : Prop := di.ptrs = List.replicate 13 0

/-- A new inode has no pointers. -/
theorem Dinode.bare_zero (type : ℕ) : ({ Dinode.zero with type := type } : Dinode).Bare := rfl

/-- The forest of an inode without pointers. -/
theorem Dinode.Bare.forest {di : Dinode} (h : di.Bare) :
    di.forest = [(0, 0), (0, 0), (0, 0), (0, 0), (0, 0), (0, 0), (0, 0), (0, 0), (0, 0), (0, 0),
      (1, 0), (1, 0), (2, 0)] := by
  rw [Dinode.forest, h]
  rfl

/-- Without pointers nothing is owned or mapped. -/
theorem Fs.refs_of_bare {m : ℕ} (h : (fs.dinode m).Bare) (n : ℕ) : fs.refs m n = 0 := by
  rw [Fs.refs, h.forest]
  simp

section Bare

variable (hwf : WellFormed fs) {m : ℕ} (hm : m < 200) {di : Dinode} (hfit : di.Fits) (hbare : di.Bare)
  (hnone : ∀ n, fs.refs m n = 0)

include hwf hm

/-- Storing an inode does not touch an owned block. -/
theorem setDinode_disk_of_refs {j n : ℕ} (hj : j < 200) (hn : 0 < fs.refs j n) :
    (fs.setDinode m di).disk n = fs.disk n := by
  have hlt := hwf.layout.inodeBlock_lt hm
  have hdata := ((hwf.accounts n).2 (hn.trans_le (Fs.refs_le_owners hj n))).1.1
  exact Fs.setDinode_disk_of_ne (by omega)

/-- Storing an inode does not touch the blocks of another file. -/
theorem setDinode_frame {j : ℕ} (hj : j < 200) (hused : (fs.dinode j).type ≠ 0) (n : ℕ)
    (hn : 0 < PointerForest.refs Block.ptrs fs.disk (fs.dinode j).forest n) :
    (fs.setDinode m di).disk n = fs.disk n :=
  setDinode_disk_of_refs hwf hm hj (by rwa [Fs.refs, if_neg hused])

/-- The blocks of the other files stay. -/
theorem fileBlock_setDinode {j : ℕ} (hj : j < 200) (hne : j ≠ m) (hused : (fs.dinode j).type ≠ 0)
    (k : ℕ) :
    (fs.setDinode m di).fileBlock j k = fs.fileBlock j k := by
  rw [Fs.fileBlock, Fs.fileBlock, Fs.dinode_setDinode_of_ne hne,
    lookup_frame (setDinode_frame hwf hm hj hused)]

/-- The contents of the other files stay. -/
theorem content_setDinode {j : ℕ} (hj : j < 200) (hne : j ≠ m) (hused : (fs.dinode j).type ≠ 0) (x : ℕ) :
    (fs.setDinode m di).content j x = fs.content j x := by
  rw [Fs.content, Fs.content, fileBlock_setDinode hwf hm hj hne hused]
  by_cases hnull : fs.fileBlock j (x / 512) = 0
  · rw [if_pos hnull, if_pos hnull]
  · have hblock : (fs.setDinode m di).disk (fs.fileBlock j (x / 512)) =
        fs.disk (fs.fileBlock j (x / 512)) :=
      setDinode_frame hwf hm hj hused _ (refs_lookup hnull)
    rw [if_neg hnull, if_neg hnull, hblock]

include hfit hbare hnone

/-- Storing an inode without pointers keeps all references. -/
theorem refs_setDinode {j : ℕ} (hj : j < 200) (n : ℕ) : (fs.setDinode m di).refs j n = fs.refs j n := by
  by_cases hne : j = m
  · subst hne
    rw [hnone, Fs.refs_of_bare (by rwa [Fs.dinode_setDinode hfit])]
  · by_cases hused : (fs.dinode j).type = 0
    · rw [Fs.refs_of_free hused, Fs.refs_of_free (by rw [Fs.dinode_setDinode_of_ne hne, hused])]
    · rw [Fs.refs, Fs.refs, Fs.dinode_setDinode_of_ne hne, if_neg hused, if_neg hused,
        refs_frame (setDinode_frame hwf hm hj hused)]

/-- Storing an inode without pointers keeps the owners of the blocks. -/
theorem owners_setDinode (n : ℕ) : (fs.setDinode m di).owners n = fs.owners n :=
  Finset.sum_congr rfl fun _ hj => refs_setDinode hwf hm hfit hbare hnone (Finset.mem_range.mp hj) n

omit hfit hbare hnone in
/-- Storing an inode keeps the bitmap. -/
theorem marked_setDinode (n : ℕ) :
    marked fs.su (fs.setDinode m di).disk n = marked fs.su fs.disk n := by
  have hlt := hwf.layout.inodeBlock_lt hm
  exact marked_congr (Fs.setDinode_disk_of_ne (by omega)) n

/-- Updating an inode without blocks keeps the file system well formed. -/
theorem wellFormed_setDinode : WellFormed (fs.setDinode m di) where
  init := hwf.init
  layout := hwf.layout
  accounts := by
    intro n
    rw [owners_setDinode hwf hm hfit hbare hnone, Fs.setDinode_su, marked_setDinode hwf hm]
    exact hwf.accounts n

end Bare

/-- Well-formedness only depends on the store. -/
theorem WellFormed.of_sameStore (h : SameStore fs fs') (hwf : WellFormed fs) : WellFormed fs' := by
  rw [h]
  exact ⟨hwf.init, hwf.layout, hwf.accounts⟩

/-! ## Linking a new inode -/

/-- No block is marked without an owner. -/
def NoLeak (fs : Fs) : Prop :=
  ∀ b, fs.su.InData b → marked fs.su fs.disk b = true → fs.owners b = 1

/-- The directory entry of a new inode. -/
def newDirent (x : ℕ) (name : CString) : Dirent := ⟨x, strncpy name.bytes maxName⟩

/-- What an attempt to link inode `x` to the directory `n` leaves behind, when `k` bytes of the entry
could be written. -/
structure LinkEffect (fs : Fs) (type n : ℕ) (name : CString) (x k m : ℕ) (fs' : Fs) : Prop where
  su_eq : fs'.su = fs.su
  wellFormed : WellFormed fs'
  noLeak : NoLeak fs → NoLeak fs'
  outcome : k = 16 ∧ m = x ∧ fs'.dinode x = { Dinode.zero with type := type, linkcnt := 1 } ∨
    k ≠ 16 ∧ m = 0 ∧ fs'.dinode x = Dinode.zero
  whole : (fs.dinode n).size % 16 = 0 → k = 0 ∨ k = 16
  parent : fs'.dinode n = { fs.dinode n with
    ptrs := (fs'.dinode n).ptrs
    size := (fs.dinode n).size + k }
  parent_kept : ∀ b, fs.fileBlock n b ≠ 0 → fs'.fileBlock n b = fs.fileBlock n b
  parent_old : ∀ y, y < (fs.dinode n).size → fs.fileBlock n (y / 512) ≠ 0 →
    fs'.content n y = fs.content n y
  parent_new : ∀ j < k, fs'.fileBlock n (((fs.dinode n).size + j) / 512) ≠ 0 ∧
    fs'.content n ((fs.dinode n).size + j) = (newDirent x name).bytes j
  others : ∀ j < 200, j ≠ n → j ≠ x → fs'.dinode j = fs.dinode j
  fileBlock_others : ∀ j < 200, j ≠ n → (fs.dinode j).type ≠ 0 →
    ∀ b, fs'.fileBlock j b = fs.fileBlock j b
  content_others : ∀ j < 200, j ≠ n → (fs.dinode j).type ≠ 0 → ∀ y, fs'.content j y = fs.content j y
  frame : ∀ b < fs.su.sinode, fs'.disk b = fs.disk b
  free : freeBlocks fs.su fs'.disk = (freeBlocks fs.su fs.disk).drop
    ((fs.setDinode x { Dinode.zero with type := type }).need n
      (writeRequest (newDirent x name).bytes 16 (fs.dinode n).size)).length

section Link

variable {type n x k m : ℕ} {name : CString} {di : Dinode} {fs₂ : Fs}

/-- A directory is not a free inode. -/
theorem ne_of_free (hdir : (fs.dinode n).type = tDir) (hfree : (fs.dinode x).type = 0) : n ≠ x := by
  rintro rfl
  rw [hdir] at hfree
  exact absurd hfree (by decide)

/-- A new inode of a valid type fits its fields. -/
theorem Dinode.fits_new (htype : type ≤ 3) : ({ Dinode.zero with type := type } : Dinode).Fits :=
  { Dinode.fits_zero with type := by simp only; omega }

/-- The state after the allocation of an inode. -/
theorem wellFormed_newInode (hwf : WellFormed fs) (hn : n < 200) (hdir : (fs.dinode n).type = tDir)
    (hx : x < 200) (hfree : (fs.dinode x).type = 0) (htype : type ≤ 3) :
    WellFormed (fs.setDinode x { Dinode.zero with type := type }) ∧
      (fs.setDinode x { Dinode.zero with type := type }).Allocated n ∧
      (fs.setDinode x { Dinode.zero with type := type }).dinode x =
      { Dinode.zero with type := type } := by
  have hfit := Dinode.fits_new htype
  have hwf₁ := wellFormed_setDinode hwf hx hfit (Dinode.bare_zero type)
    (fun b => Fs.refs_of_free (m := b) hfree)
  refine ⟨hwf₁, ⟨by rw [hwf₁.layout.ninodes]; exact hn, ?_⟩, Fs.dinode_setDinode hfit⟩
  rw [Fs.dinode_setDinode_of_ne (ne_of_free hdir hfree), hdir]
  decide

/-- An entry is written whole or not at all when it is aligned. -/
theorem done_dirent {size k B : ℕ} (hsize : size % 16 = 0) (hk : k = min 16 (512 * B - size)) :
    k = 0 ∨ k = 16 := by omega

/-- The three updates of `fs_mknod`: the new inode, the entry, and the inode again. -/
theorem linkEffect_of_steps (hwf : WellFormed fs) (hn : n < 200) (hdir : (fs.dinode n).type = tDir)
    (hx : x < 200) (hfree : (fs.dinode x).type = 0) (htype : type ≤ 3)
    (hwritten : FileWritten (fs.setDinode x { Dinode.zero with type := type }) n
      (writeRequest (newDirent x name).bytes 16 (fs.dinode n).size) k fs₂)
    (hfit : di.Fits) (hbare : di.Bare)
    (hout : k = 16 ∧ m = x ∧ di = { Dinode.zero with type := type, linkcnt := 1 } ∨
      k ≠ 16 ∧ m = 0 ∧ di = Dinode.zero) : LinkEffect fs type n name x k m (fs₂.setDinode x di) := by
  have hne : n ≠ x := ne_of_free hdir hfree
  have hused : (fs.dinode n).type ≠ 0 := by rw [hdir]; decide
  set new : Dinode := { Dinode.zero with type := type } with hnew
  have hfit₁ : new.Fits := Dinode.fits_new htype
  have hnone₁ := fun b => Fs.refs_of_free (m := b) hfree
  have hbare₁ : new.Bare := Dinode.bare_zero type
  obtain ⟨hwf₁, halloc₁, hx₁⟩ := wellFormed_newInode hwf hn hdir hx hfree htype
  set fs₁ := fs.setDinode x new with hfs₁
  have hn₁ : fs₁.dinode n = fs.dinode n := Fs.dinode_setDinode_of_ne hne
  have hwf₂ := hwritten.wellFormed hwf₁ halloc₁
  have hx₂ : fs₂.dinode x = new := by rw [hwritten.others x hx (Ne.symm hne), hx₁]
  have hnone₂ (b : ℕ) : fs₂.refs x b = 0 := Fs.refs_of_bare (by rw [hx₂]; exact hbare₁) b
  have hwf₃ := wellFormed_setDinode hwf₂ hx hfit hbare hnone₂
  have hn₂ : fs₂.dinode n = { fs.dinode n with
      ptrs := (fs₂.dinode n).ptrs
      size := (fs.dinode n).size + k } := by
    rw [hwritten.inode, hn₁]
    simp [writeRequest]
  have hn₂used : (fs₂.dinode n).type ≠ 0 := by rw [hn₂]; exact hused
  have hn₃ : (fs₂.setDinode x di).dinode n = fs₂.dinode n := Fs.dinode_setDinode_of_ne hne
  have hsu₂ : fs₂.su = fs.su := hwritten.su_eq
  have hblock₁ {j : ℕ} (hj : j < 200) (hjused : (fs.dinode j).type ≠ 0) (b : ℕ) :
      fs₁.fileBlock j b = fs.fileBlock j b :=
    fileBlock_setDinode hwf hx hj (by rintro rfl; exact hjused hfree) hjused b
  have hcontent₁ {j : ℕ} (hj : j < 200) (hjused : (fs.dinode j).type ≠ 0) (y : ℕ) :
      fs₁.content j y = fs.content j y :=
    content_setDinode hwf hx hj (by rintro rfl; exact hjused hfree) hjused y
  have hstays {j : ℕ} (hj : j < 200) (hjn : j ≠ n) (hjused : (fs.dinode j).type ≠ 0) :
      j ≠ x ∧ (fs₁.dinode j).type ≠ 0 ∧ (fs₂.dinode j).type ≠ 0 := by
    have hjx : j ≠ x := by rintro rfl; exact hjused hfree
    have hj₁ : fs₁.dinode j = fs.dinode j := Fs.dinode_setDinode_of_ne hjx
    have hj₂ : fs₂.dinode j = fs.dinode j := (hwritten.others j hj hjn).trans hj₁
    exact ⟨hjx, by rwa [hj₁], by rwa [hj₂]⟩
  have hsize : (writeRequest (newDirent x name).bytes 16 (fs.dinode n).size).off =
      (fs.dinode n).size := rfl
  constructor
  case su_eq => exact hsu₂
  case wellFormed => exact hwf₃
  case noLeak =>
    intro hleak b hdata hmarked
    rw [owners_setDinode hwf₂ hx hfit hbare hnone₂]
    rw [Fs.setDinode_su, marked_setDinode hwf₂ hx] at hmarked
    rw [Fs.setDinode_su, hsu₂] at hdata
    refine hwritten.owned_of_marked hwf₁ halloc₁ hdata (fun hold => ?_) hmarked
    rw [hfs₁, Fs.setDinode_su, marked_setDinode hwf hx] at hold
    rw [hfs₁, owners_setDinode hwf hx hfit₁ hbare₁ hnone₁]
    exact hleak b hdata hold
  case outcome =>
    rw [Fs.dinode_setDinode hfit]
    exact hout
  case whole =>
    intro hmod
    rcases hwritten.outcome with ⟨hk, -⟩ | ⟨⟨B, -, hk⟩, -⟩
    · exact done_dirent hmod hk
    · exact done_dirent hmod hk
  case parent =>
    rw [hn₃]
    exact hn₂
  case parent_kept =>
    intro b hb
    rw [fileBlock_setDinode hwf₂ hx hn hne hn₂used, hwritten.kept b (by rwa [hblock₁ hn hused]),
      hblock₁ hn hused]
  case parent_old =>
    intro y hy hb
    rw [content_setDinode hwf₂ hx hn hne hn₂used, hwritten.content y, if_neg (by rw [hsize]; omega),
      if_neg (fun h => hb (by rw [← hblock₁ hn hused]; exact h.1)), hcontent₁ hn hused]
  case parent_new =>
    intro j hj
    have hlow : (fs.dinode n).size ≤ (fs.dinode n).size + j := Nat.le_add_right _ _
    have hhigh : (fs.dinode n).size + j < (fs.dinode n).size + k := Nat.add_lt_add_left hj _
    constructor
    · rw [fileBlock_setDinode hwf₂ hx hn hne hn₂used]
      exact hwritten.covered _ hlow hhigh
    · rw [content_setDinode hwf₂ hx hn hne hn₂used, hwritten.content _, if_pos ⟨hlow, hhigh⟩, hsize,
        Nat.add_sub_cancel_left]
      rfl
  case others =>
    intro j hj hjn hjx
    rw [Fs.dinode_setDinode_of_ne hjx, hwritten.others j hj hjn, hfs₁, Fs.dinode_setDinode_of_ne hjx]
  case fileBlock_others =>
    intro j hj hjn hjused b
    obtain ⟨hjx, hj₁, hj₂⟩ := hstays hj hjn hjused
    rw [fileBlock_setDinode hwf₂ hx hj hjx hj₂, hwritten.fileBlock_other hwf₁ halloc₁ hj hjn hj₁,
      hblock₁ hj hjused]
  case content_others =>
    intro j hj hjn hjused y
    obtain ⟨hjx, hj₁, hj₂⟩ := hstays hj hjn hjused
    rw [content_setDinode hwf₂ hx hj hjx hj₂, hwritten.content_other hwf₁ halloc₁ hj hjn hj₁,
      hcontent₁ hj hjused]
  case frame =>
    intro b hb
    have hb₂ : b ≠ fs₂.su.sinode + x / 8 := by rw [hsu₂]; omega
    rw [Fs.setDinode_disk_of_ne hb₂, hwritten.disk_of_lt hwf₁ halloc₁ hb, hfs₁,
      Fs.setDinode_disk_of_ne (by omega)]
  case free =>
    have hlt := hwf.layout.inodeBlock_lt hx
    have hfree₁ : freeBlocks fs.su fs₁.disk = freeBlocks fs.su fs.disk :=
      freeBlocks_congr (Fs.setDinode_disk_of_ne (by omega))
    have hfree₂ : freeBlocks fs.su (fs₂.setDinode x di).disk = freeBlocks fs.su fs₂.disk :=
      freeBlocks_congr (Fs.setDinode_disk_of_ne (by rw [hsu₂]; omega))
    have hdrop := hwritten.free
    rw [hfs₁, Fs.setDinode_su, ← hfs₁, hfree₁] at hdrop
    rw [hfree₂, hdrop]

/-- The effect does not depend on the messages. -/
theorem LinkEffect.of_sameStore {fs₀ : Fs} (hfirst : SameStore fs fs₀) (hlast : SameStore fs₂ fs')
    (h : LinkEffect fs₀ type n name x k m fs₂) : LinkEffect fs type n name x k m fs' := by
  rw [hfirst] at h
  rw [hlast]
  exact ⟨h.su_eq, h.wellFormed.of_sameStore rfl, h.noLeak, h.outcome, h.whole, h.parent, h.parent_kept,
    h.parent_old, h.parent_new, h.others, h.fileBlock_others, h.content_others, h.frame, h.free⟩

/-- The end of `fs_mknod`, once an inode has been allocated: the entry is written, and then the
inode is stored again, with a link count or as a free one. -/
theorem linkInode_steps (hwf : WellFormed fs) (hn : n < 200) (hdir : (fs.dinode n).type = tDir)
    (hx : x < 200) (hfree : (fs.dinode x).type = 0) (htype : type ≤ 3) {parent : CString}
    {r : ℕ × Fs} (h : linkInode (fs.setDinode x { Dinode.zero with type := type }) x n (fs.dinode n) name
      parent = .ok r) :
    ∃ (k : ℕ) (fs₂ : Fs) (di : Dinode),
      fsWrite (fs.setDinode x { Dinode.zero with type := type }) n (newDirent x name).bytes direntSize
        (fs.dinode n).size = .ok ((k : ℤ), fs₂) ∧
      FileWritten (fs.setDinode x { Dinode.zero with type := type }) n
        (writeRequest (newDirent x name).bytes 16 (fs.dinode n).size) k fs₂ ∧
      di.Fits ∧ di.Bare ∧ SameStore (fs₂.setDinode x di) r.2 ∧
      (k = 16 ∧ r.1 = x ∧ di = { Dinode.zero with type := type, linkcnt := 1 } ∨
        k ≠ 16 ∧ r.1 = 0 ∧ di = Dinode.zero) := by
  have hne : n ≠ x := ne_of_free hdir hfree
  have hfit₁ := Dinode.fits_new htype
  obtain ⟨hwf₁, halloc₁, hx₁⟩ := wellFormed_newInode hwf hn hdir hx hfree htype
  rw [linkInode, bind_eq_ok] at h
  obtain ⟨⟨ret, fs₂⟩, hwrite, h⟩ := h
  obtain ⟨k, hret, -, hwritten⟩ :=
    fsWrite_spec hwf₁ halloc₁ (show bits32 (direntSize : ℤ) ≤ 0xefffffff by decide)
    (fs.fits_dinode n).size hwrite
  dsimp only at hret hwritten h
  subst hret
  have hwf₂ := hwritten.wellFormed hwf₁ halloc₁
  have hx₂ : fs₂.dinode x = { Dinode.zero with type := type } := by
    rw [hwritten.others x hx (Ne.symm hne), hx₁]
  split at h
  · rename_i hk
    rw [bind_eq_ok] at h
    obtain ⟨f, hf, h⟩ := h
    rw [freeInode_of_null hwf₂.init hwf₂.layout hx (by rw [hx₂]; rfl)] at hf
    cases hf
    cases h
    rw [hx₂]
    refine ⟨k, fs₂, Dinode.zero, hwrite, hwritten, Dinode.fits_zero, rfl, SameStore.printf _ _ _,
      .inr ⟨?_, rfl, rfl⟩⟩
    rintro rfl
    exact hk rfl
  · rename_i hk
    have hfit : ({ Dinode.zero with type := type, linkcnt := 1 } : Dinode).Fits :=
      { hfit₁ with linkcnt := by simp }
    rw [readInode_eq hwf₂.init hwf₂.layout hx, Option.getD_some, hx₂] at h
    dsimp only at h
    rw [show ({ Dinode.zero with type := type, linkcnt := u16 (Dinode.zero.linkcnt + 1) } : Dinode) =
      { Dinode.zero with type := type, linkcnt := 1 } from rfl,
      writeInode_eq hwf₂.init hwf₂.layout hx hfit] at h
    cases h
    exact ⟨k, fs₂, _, hwrite, hwritten, hfit, rfl, SameStore.refl _,
      .inl ⟨Int.ofNat_inj.mp (not_not.mp hk), rfl, rfl⟩⟩

/-- What linking a new inode into a directory does, whether the entry is written or not. -/
theorem linkInode_effect (hwf : WellFormed fs) (hn : n < 200) (hdir : (fs.dinode n).type = tDir)
    (hx : x < 200) (hfree : (fs.dinode x).type = 0) (htype : type ≤ 3) {parent : CString}
    {r : ℕ × Fs} (h : linkInode (fs.setDinode x { Dinode.zero with type := type }) x n (fs.dinode n) name
      parent = .ok r) : ∃ k, LinkEffect fs type n name x k r.1 r.2 := by
  obtain ⟨k, fs₂, di, -, hwritten, hfit, hbare, hsame, hout⟩ :=
    linkInode_steps hwf hn hdir hx hfree htype h
  exact ⟨k, LinkEffect.of_sameStore (SameStore.refl fs) hsame
    (linkEffect_of_steps hwf hn hdir hx hfree htype hwritten hfit hbare hout)⟩

/-- The end of `fs_mknod` returns. -/
theorem linkInode_returns (hwf : WellFormed fs) (hdat : fs.su.nblockDat ≤ 4096) (hn : n < 200)
    (hdir : (fs.dinode n).type = tDir) (hx : x < 200) (hfree : (fs.dinode x).type = 0) (htype : type ≤ 3)
    (name parent : CString) : ∃ r, linkInode (fs.setDinode x { Dinode.zero with type := type }) x n
      (fs.dinode n) name parent = .ok r := by
  obtain ⟨hwf₁, halloc₁, hx₁⟩ := wellFormed_newInode hwf hn hdir hx hfree htype
  have hdat₁ : (fs.setDinode x { Dinode.zero with type := type }).su.nblockDat ≤ 4096 := hdat
  obtain ⟨⟨ret, fs₂⟩, hwrite⟩ := fsWrite_returns hdat₁ n
    (Dirent.mk x (strncpy name.bytes maxName)).bytes direntSize (fs.dinode n).size
  obtain ⟨k, -, -, hwritten⟩ :=
    fsWrite_spec hwf₁ halloc₁ (show bits32 (direntSize : ℤ) ≤ 0xefffffff by decide)
    (fs.fits_dinode n).size hwrite
  have hwf₂ := hwritten.wellFormed hwf₁ halloc₁
  have hx₂ : fs₂.dinode x = { Dinode.zero with type := type } := by
    rw [hwritten.others x hx (ne_of_free hdir hfree).symm, hx₁]
  rw [linkInode, hwrite, ok_bind]
  split
  · rw [freeInode_of_null hwf₂.init hwf₂.layout hx (by rw [hx₂]; rfl)]
    exact ⟨_, rfl⟩
  · exact ⟨_, rfl⟩

/-- The end of `fs_mknod` succeeds when the entry fits and there are enough free blocks for it. -/
theorem linkInode_creates (hwf : WellFormed fs) (hdat : fs.su.nblockDat ≤ 4096) (hn : n < 200)
    (hdir : (fs.dinode n).type = tDir) (hx : x < 200) (hfree : (fs.dinode x).type = 0) (htype : type ≤ 3)
    (hsize : (fs.dinode n).size + 16 ≤ maxBytes) (name parent : CString)
    (hroom : ((fs.setDinode x { Dinode.zero with type := type }).need n
      (writeRequest (newDirent x name).bytes 16 (fs.dinode n).size)).length ≤
        (freeBlocks fs.su fs.disk).length) :
    ∃ fs', linkInode (fs.setDinode x { Dinode.zero with type := type }) x n (fs.dinode n) name parent =
      .ok (x, fs') := by
  obtain ⟨hwf₁, halloc₁, -⟩ := wellFormed_newInode hwf hn hdir hx hfree htype
  have hdat₁ : (fs.setDinode x { Dinode.zero with type := type }).su.nblockDat ≤ 4096 := hdat
  obtain ⟨⟨ret, fs₂⟩, hwrite⟩ := fsWrite_returns hdat₁ n
    (newDirent x name).bytes direntSize (fs.dinode n).size
  obtain ⟨k, hret, -, hwritten⟩ :=
    fsWrite_spec hwf₁ halloc₁ (show bits32 (direntSize : ℤ) ≤ 0xefffffff by decide)
    (fs.fits_dinode n).size hwrite
  dsimp only at hret hwritten
  have hlt := hwf.layout.inodeBlock_lt hx
  have hbits : freeBlocks fs.su (fs.setDinode x { Dinode.zero with type := type }).disk =
      freeBlocks fs.su fs.disk := freeBlocks_congr (Fs.setDinode_disk_of_ne (by omega))
  have hk : k = 16 := by
    rcases hwritten.outcome with ⟨hk, -⟩ | ⟨-, hfull⟩
    · have hdone : k = min 16 (512 * maxBlocks - (fs.dinode n).size) := hk
      simp only [maxBytes, maxBlocks] at hsize hdone
      omega
    · rw [Fs.setDinode_su, hbits] at hfull
      exact absurd hfull (Nat.not_lt.mpr hroom)
  rw [hret, hk] at hwrite
  have hentry : Dirent.mk x (strncpy name.bytes maxName) = newDirent x name := rfl
  rw [linkInode, hentry, hwrite, ok_bind, if_neg (by simp)]
  exact ⟨_, rfl⟩

end Link

/-- The checks of `fs_mknod` that have to succeed before an inode is allocated. -/
structure MknodChecks (fs : Fs) (path : CString) (name parent : CString) (n : ℕ) : Prop where
  getname : getname (some path) = .ok (some (name, parent))
  lookup : ∃ r, fsLookup fs (some parent) = .ok r ∧ r.1 = n
  ne_null : n ≠ nullInum
  lt : n < 200
  dir : (fs.dinode n).type = tDir
  fresh : ∃ fs₀ r, SameStore fs fs₀ ∧ dirLookup fs₀ n name.bytes = .ok r ∧ r.1 = nullInum

/-- The path gets past the checks of `fs_mknod`: it ends in `name`, and there is no such name yet in the
directory `n` that the rest of it leads to. -/
structure MknodPasses (fs : Fs) (path name parent : CString) (n : ℕ) : Prop where
  getname : getname (some path) = .ok (some (name, parent))
  lookup : fsLookup fs (some parent) = .ok (n, fs)
  ne_null : n ≠ nullInum
  lt : n < 200
  dir : (fs.dinode n).type = tDir
  fresh : dirLookup fs n name.bytes = .ok (nullInum, fs)

/-- The inode that `alloc_inode` takes. -/
def Fs.FirstFree (fs : Fs) (x : ℕ) : Prop :=
  x < 200 ∧ (fs.dinode x).type = 0 ∧ ∀ j < x, (fs.dinode j).type ≠ 0

/-- A call of `fs_mknod` ends with a message, or gets past its checks and links the first free inode. -/
theorem fsMknod_stages (hwf : WellFormed fs) (hzero : (fs.dinode 0).type ≠ 0) {path : Option CString}
    {type : ℕ} {r : ℕ × Fs} (h : fsMknod fs path type = .ok r) :
    (r.1 = nullInum ∧ SameStore fs r.2) ∨
      ∃ p name parent n x, path = some p ∧ type ≤ 3 ∧ fs.FirstFree x ∧ MknodPasses fs p name parent n ∧
        linkInode (fs.setDinode x { Dinode.zero with type := type }) x n (fs.dinode n) name parent =
        .ok r := by
  rw [fsMknod, bind_eq_ok] at h
  obtain ⟨o, hname, h⟩ := h
  cases o with
  | none =>
    cases h
    exact .inl ⟨rfl, SameStore.printf _ _ _⟩
  | some np =>
    obtain ⟨name, parent⟩ := np
    obtain ⟨p, rfl⟩ : ∃ p, path = some p := by
      cases path with
      | none => cases hname
      | some p => exact ⟨p, rfl⟩
    dsimp only at h
    rw [bind_eq_ok] at h
    obtain ⟨⟨n, fs₁⟩, hlookup, h⟩ := h
    obtain rfl : fs₁ = fs := fsLookup_keeps hlookup
    split at h
    · cases h
      exact .inl ⟨rfl, SameStore.printf _ _ _⟩
    · rename_i hnull
      split at h
      · cases h
      · rename_i di fs₂ hread
        obtain rfl : fs₂ = fs₁ := readInode_some hread
        have hlt : n < 200 := by
          by_contra hge
          simp [readInode, rwInode, hwf.init, hwf.layout.ninodes, Nat.not_lt.mp hge] at hread
        rw [readInode_eq hwf.init hwf.layout hlt, Prod.mk.injEq, Option.some.injEq] at hread
        obtain ⟨rfl, -⟩ := hread
        split at h
        · cases h
          exact .inl ⟨rfl, SameStore.printf _ _ _⟩
        · rename_i hdir
          rw [bind_eq_ok] at h
          obtain ⟨⟨k, fs₃⟩, hchild, h⟩ := h
          obtain rfl : fs₃ = fs₂ := dirLookup_keeps hchild
          dsimp only at hchild h
          split at h
          · cases h
            exact .inl ⟨rfl, SameStore.printf _ _ _⟩
          · rename_i hfresh
            obtain rfl : k = nullInum := not_not.mp hfresh
            rcases allocInode_cases hwf.layout type with
              ⟨x, hx, htype, hfree, hleast, halloc⟩ | ⟨-, fmt, args, halloc⟩
            · have hxpos : x ≠ 0 := by
                rintro rfl
                exact hzero hfree
              rw [halloc, show u16 x = x from Nat.mod_eq_of_lt (by omega), if_neg hxpos] at h
              exact .inr ⟨p, name, parent, n, x, rfl, htype, ⟨hx, hfree, hleast⟩,
                ⟨hname, hlookup, hnull, hlt, not_not.mp hdir, hchild⟩, h⟩
            · rw [halloc] at h
              cases h
              exact .inl ⟨rfl, SameStore.printf _ _ _⟩

/-- `alloc_inode` takes the first free inode. -/
theorem Fs.FirstFree.allocInode_eq {x type : ℕ} (h : fs.FirstFree x) (hlayout : fs.su.Layout)
    (htype : type ≤ 3) :
    allocInode fs type = (x, fs.setDinode x { Dinode.zero with type := type }) := by
  obtain ⟨hx, hfree, hleast⟩ := h
  rcases allocInode_cases hlayout type with ⟨m, hm, -, hmfree, hmleast, halloc⟩ | ⟨hnone, -⟩
  · obtain rfl : m = x := by
      rcases Nat.lt_trichotomy m x with hlt | heq | hgt
      · exact absurd hmfree (hleast m hlt)
      · exact heq
      · exact absurd hfree (hmleast x hgt)
    exact halloc
  · exact absurd hfree (hnone.resolve_left (by omega) x hx)

/-- A path that gets past the checks is linked to the first free inode. -/
theorem MknodPasses.fsMknod_eq {path name parent : CString} {n x type : ℕ}
    (h : MknodPasses fs path name parent n) (hwf : WellFormed fs) (hzero : (fs.dinode 0).type ≠ 0)
    (hfirst : fs.FirstFree x) (htype : type ≤ 3) :
    fsMknod fs (some path) type =
      linkInode (fs.setDinode x { Dinode.zero with type := type }) x n (fs.dinode n) name parent := by
  have hx := hfirst.1
  have hpos : x ≠ nullInum := by
    rintro rfl
    exact hzero hfirst.2.1
  rw [fsMknod, h.getname, ok_bind]
  dsimp only
  rw [h.lookup, ok_bind]
  dsimp only
  rw [if_neg h.ne_null, readInode_eq hwf.init hwf.layout h.lt]
  dsimp only
  rw [if_neg (not_not_intro h.dir), h.fresh, ok_bind]
  dsimp only
  rw [if_neg (by decide), hfirst.allocInode_eq hwf.layout htype,
    show u16 x = x from Nat.mod_eq_of_lt (by omega), if_neg hpos]

/-- `fs_mknod` either changes nothing but the messages, or gets past its checks and allocates the first
free inode. -/
theorem fsMknod_steps (hwf : WellFormed fs) (hzero : (fs.dinode 0).type ≠ 0) {path : Option CString}
    {type : ℕ} {r : ℕ × Fs} (h : fsMknod fs path type = .ok r) :
    (r.1 = nullInum ∧ SameStore fs r.2) ∨
      ∃ p name parent n x fs₂, path = some p ∧ type ≤ 3 ∧ x < 200 ∧ (fs.dinode x).type = 0 ∧
        (∀ j < x, (fs.dinode j).type ≠ 0) ∧ MknodChecks fs p name parent n ∧ SameStore fs fs₂ ∧
        linkInode (fs₂.setDinode x { Dinode.zero with type := type }) x n
        (fs₂.dinode n) name parent = .ok r := by
  rcases fsMknod_stages hwf hzero h with
    hfailed | ⟨p, name, parent, n, x, hp, htype, ⟨hx, hfree, hleast⟩, hpasses, hlink⟩
  · exact .inl hfailed
  · exact .inr ⟨p, name, parent, n, x, fs, hp, htype, hx, hfree, hleast,
      ⟨hpasses.getname, ⟨_, hpasses.lookup, rfl⟩, hpasses.ne_null, hpasses.lt, hpasses.dir,
        ⟨fs, _, SameStore.refl fs, hpasses.fresh, rfl⟩⟩, SameStore.refl fs, hlink⟩

/-- `fs_mknod` either changes nothing but the messages, or gets past its checks and links the first
free inode. -/
theorem fsMknod_cases (hwf : WellFormed fs) (hzero : (fs.dinode 0).type ≠ 0) {path : Option CString}
    {type : ℕ} {r : ℕ × Fs} (h : fsMknod fs path type = .ok r) :
    (r.1 = nullInum ∧ SameStore fs r.2) ∨
      ∃ p name parent n x k, path = some p ∧ type ≤ 3 ∧ x < 200 ∧ (fs.dinode x).type = 0 ∧
        (∀ j < x, (fs.dinode j).type ≠ 0) ∧ MknodChecks fs p name parent n ∧
        LinkEffect fs type n name x k r.1 r.2 := by
  rcases fsMknod_steps hwf hzero h with
    hfailed | ⟨p, name, parent, n, x, fs₂, hp, htype, hx, hfree, hleast, hchecks, hsame, hlink⟩
  · exact .inl hfailed
  · have hdinode (i : ℕ) : fs₂.dinode i = fs.dinode i := by rw [hsame]; rfl
    obtain ⟨k, heffect⟩ := linkInode_effect (hwf.of_sameStore hsame) hchecks.lt
      (by rw [hdinode]; exact hchecks.dir) hx (by rw [hdinode]; exact hfree) htype hlink
    exact .inr ⟨p, name, parent, n, x, k, hp, htype, hx, hfree, hleast, hchecks,
      heffect.of_sameStore hsame (SameStore.refl _)⟩

/-- What `fs_mknod` did when it returned an inode. -/
theorem fsMknod_linked (hwf : WellFormed fs) (hzero : (fs.dinode 0).type ≠ 0) {path : Option CString}
    {type m : ℕ} {fs' : Fs} (h : fsMknod fs path type = .ok (m, fs')) (hm : m ≠ nullInum) :
    ∃ p name parent n, path = some p ∧ type ≤ 3 ∧ m < 200 ∧ (fs.dinode m).type = 0 ∧
      MknodChecks fs p name parent n ∧ LinkEffect fs type n name m 16 m fs' ∧
      fs'.dinode m = { Dinode.zero with type := type, linkcnt := 1 } := by
  rcases fsMknod_cases hwf hzero h with
    ⟨hnull, -⟩ | ⟨p, name, parent, n, x, k, hp, htype, hx, hfree, -, hchecks, heffect⟩
  · exact absurd hnull hm
  · dsimp only at heffect
    rcases heffect.outcome with ⟨rfl, rfl, hnew⟩ | ⟨-, hnull, -⟩
    · exact ⟨p, name, parent, n, hp, htype, hx, hfree, hchecks, heffect, hnew⟩
    · exact absurd hnull hm

/-- `fs_mknod` returns when the path fits the buffers of the two parsers. -/
theorem fsMknod_returns (hwf : WellFormed fs) (hgood : GoodDirs fs) (hdat : fs.su.nblockDat ≤ 4096)
    {path : CString} (hlen : path.bytes.length < maxPath) (hshort : path.ShortNames) (type : ℕ) :
    ∃ r, fsMknod fs (some path) type = .ok r := by
  obtain ⟨o, hname⟩ := getname_returns hlen
  rw [fsMknod, hname, ok_bind]
  cases o with
  | none => exact ⟨_, rfl⟩
  | some np =>
    obtain ⟨name, parent⟩ := np
    obtain ⟨tail, hcut⟩ := getname_eq_some hname
    obtain ⟨n, hn, hlookup⟩ :=
      fsLookup_returns hwf.init hwf.layout hgood (hcut.parent_shortNames hshort)
    dsimp only
    rw [hlookup, ok_bind]
    dsimp only
    split
    · exact ⟨_, rfl⟩
    · rw [readInode_eq hwf.init hwf.layout hn]
      dsimp only
      split
      · exact ⟨_, rfl⟩
      · rename_i hdir
        rw [dirLookup_eq hwf.init hwf.layout hn (hgood.dirs n hn), ok_bind]
        dsimp only
        split
        · exact ⟨_, rfl⟩
        · split
          · exact ⟨_, rfl⟩
          · rename_i hpos
            rcases allocInode_cases hwf.layout type with
              ⟨x, hx, htype, hfree, -, halloc⟩ | ⟨-, fmt, args, halloc⟩
            · rw [halloc, show u16 x = x from Nat.mod_eq_of_lt (by omega)]
              exact linkInode_returns hwf hdat hn (not_not.mp hdir) hx hfree htype name parent
            · exact absurd (by rw [halloc]; rfl) hpos

/-- `fs_mknod` of a new name in a directory creates the first free inode when the entry fits and there
are enough free blocks for it. -/
theorem fsMknod_creates (hwf : WellFormed fs) (hdat : fs.su.nblockDat ≤ 4096)
    {path name parent : CString} {n x type : ℕ} (hname : getname (some path) = .ok (some (name, parent)))
    (hlookup : fsLookup fs (some parent) = .ok (n, fs)) (hnull : n ≠ nullInum) (hn : n < 200)
    (hdir : (fs.dinode n).type = tDir) (hgood : GoodDir fs n) (hfresh : fs.child n name.bytes = nullInum)
    (hx : x < 200) (hpos : x ≠ nullInum) (hfree : (fs.dinode x).type = 0)
    (hleast : ∀ j < x, (fs.dinode j).type ≠ 0) (htype : type ≤ 3)
    (hsize : (fs.dinode n).size + 16 ≤ maxBytes)
      (hroom : ((fs.setDinode x { Dinode.zero with type := type }).need n
      (writeRequest (newDirent x name).bytes 16 (fs.dinode n).size)).length ≤
        (freeBlocks fs.su fs.disk).length) :
    ∃ fs', fsMknod fs (some path) type = .ok (x, fs') := by
  obtain ⟨fs', hlink⟩ := linkInode_creates hwf hdat hn hdir hx hfree htype hsize name parent hroom
  have hpasses : MknodPasses fs path name parent n := by
    refine ⟨hname, hlookup, hnull, hn, hdir, ?_⟩
    rw [dirLookup_eq hwf.init hwf.layout hn (fun _ => hgood), hfresh]
  have hzero : (fs.dinode 0).type ≠ 0 := hleast 0 (Nat.pos_of_ne_zero hpos)
  exact ⟨fs', (hpasses.fsMknod_eq hwf hzero ⟨hx, hfree, hleast⟩ htype).trans hlink⟩

end Hobby386
