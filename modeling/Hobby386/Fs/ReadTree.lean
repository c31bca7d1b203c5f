import Hobby386.Fs.ReadPosition

/-!
# The effect of `fs_read`

A read traverses the pointers of an inode like a write, but skips what is missing and leaves the
disk as it is: an indirect block is written back with the pointers that were read from it.
-/

namespace Hobby386

open PointerForest

variable {c : ReadRequest} {l p i : ℕ} {fs : Fs} {sa : ShareArg}

/-- The forest is the part of the file at block `B`. -/
def Part (c : ReadRequest) (F : Forest) (B : ℕ) : Prop :=
  ∀ k, B ≤ k → k < B + width 128 F →
    lookup Block.ptrs 128 c.fs.disk F B k = c.fs.fileBlock c.inum k ∧
      hole Block.ptrs 128 c.fs.disk F B k = c.fs.missing c.inum k

/-- The part of a range in the first tree. -/
theorem Part.head {t : ℕ × ℕ} {F : Forest} {B : ℕ} (h : Part c (t :: F) B) : Part c [t] B := by
  intro k hk hk'
  rw [width_cons, width_nil, Nat.add_zero] at hk'
  have hpart := h k hk (by rw [width_cons]; exact hk'.trans_le (by omega))
  rwa [lookup_head hk', hole_head hk'] at hpart

/-- The part of a range behind the first tree. -/
theorem Part.tail {t : ℕ × ℕ} {F : Forest} {B : ℕ} (h : Part c (t :: F) B) :
    Part c F (B + 128 ^ t.1) := by
  intro k hk hk'
  have hpart := h k ((Nat.le_add_right B _).trans hk) (by rw [width_cons, ← Nat.add_assoc]; exact hk')
  rwa [lookup_tail hk, hole_tail hk] at hpart

/-- What an indirect block points to. -/
theorem Part.kids {B : ℕ} (hp : p ≠ 0) (h : Part c [(l + 1, p)] B) :
    Part c (row l (c.fs.disk p).ptrs) B := by
  intro k hk hk'
  rw [width_row, Block.ptrs_length, ← pow_succ'] at hk'
  have hpart := h k hk (by simpa using hk')
  rwa [lookup_node_full (Block.ptrs_length _) hp, hole_node hp hk'] at hpart

/-- A call at level `l` reads the tree it is given and changes neither the pointer nor the file
system. -/
def Reads (c : ReadRequest) (l : ℕ) (rw : RwFn) : Prop :=
  ∀ (p : ℕ) (sa : ShareArg), ReadPos c sa → sa.boff + 128 ^ l ≤ maxBlocks → Part c [(l, p)] sa.boff →
    ∃ sa', rw p sa c.fs = .ok ⟨0, p, sa', c.fs⟩ ∧ ReadPos c sa' ∧ sa'.boff = sa.boff + 128 ^ l

/-- A loop over pointers reads their forest. -/
theorem reads_loop {rw : ℕ → RwFn} {level : ℕ → ℕ} (hrw : ∀ i, Reads c (level i) (rw i)) {ps : List ℕ}
    (hpos : ReadPos c sa) (hroom : sa.boff + width 128 (forestFrom level i ps) ≤ maxBlocks)
    (hpart : Part c (forestFrom level i ps) sa.boff) :
    ∃ sa', rwPtrs rw i ps sa c.fs = .ok ⟨0, ps, sa', c.fs⟩ ∧ ReadPos c sa' ∧
      sa'.boff = sa.boff + width 128 (forestFrom level i ps) := by
  induction ps generalizing i sa with
  | nil => exact ⟨sa, rfl, hpos, rfl⟩
  | cons p ps ih =>
    rw [forestFrom] at hroom hpart ⊢
    rw [width_cons] at hroom ⊢
    dsimp only at hroom ⊢
    obtain ⟨sa₁, hcall, hpos₁, hboff₁⟩ := hrw i p sa hpos (by omega) hpart.head
    have htail := hpart.tail
    dsimp only at htail
    rw [← hboff₁] at htail
    obtain ⟨sa₂, hloop, hpos₂, hboff₂⟩ := ih hpos₁ (by omega) htail
    refine ⟨sa₂, ?_, hpos₂, by omega⟩
    rw [rwPtrs, hcall, ok_bind, if_pos rfl, hloop, ok_bind]

/-- One level of the recursion. -/
theorem reads_rwBody {alloc : Allocator} {below : RwFn} (hl : l ≤ 2) (hstart : c.start ≤ c.sblock)
    (hbelow : ∀ m, l = m + 1 → Reads c m below) : Reads c l (rwBody alloc below l) := by
  intro p sa hpos hroom hpart
  have hwidth : width 128 [(l, p)] = 128 ^ l := by simp
  have hbytes := coverageBytes_eq hroom
  simp only [rwBody, eblock_eq hl hroom]
  by_cases hvisit : sa.boff ≤ sa.eblock ∧ sa.sblock < sa.boff + 128 ^ l
  · rw [if_neg (not_not_intro hvisit), if_neg (by simp [hpos.w])]
    rw [hpos.eblock, hpos.sblock] at hvisit
    by_cases hp : p = 0
    · -- a missing subtree; when it covers the offset, the read starts at its first block
      rw [if_pos hp]
      have hnull (k : ℕ) (hk : sa.boff ≤ k) (hk' : k < sa.boff + 128 ^ l) :
          c.fs.fileBlock c.inum k = 0 := by
        rw [← (hpart k hk (by rwa [hwidth])).1, hp, lookup_null]
      have hfirst (hge : sa.boff ≤ c.sblock) : c.start = sa.boff := by
        have hmissing := (hpart c.sblock hge (by rw [hwidth]; exact hvisit.2)).2
        rw [hp, hole_null hvisit.2] at hmissing
        rw [ReadRequest.start, ← hmissing]
        rfl
      have hrun := (hpos.enter hstart hfirst).hole hnull rfl
      refine ⟨_, by rw [hp], ?_, ?_⟩
      · rw [rwHole, blockSize, hbytes]
        refine ⟨hpos.w, hpos.sblock, hpos.eblock, fun hwait => ?_, fun _ => hrun⟩
        dsimp only at hwait
        omega
      · rfl
    · rw [if_neg hp]
      cases l with
      | zero =>
        rw [if_pos rfl]
        have hblock := hpart sa.boff le_rfl (by rw [hwidth]; omega)
        rw [lookup_leaf, if_pos (Nat.lt_succ_self _), hole_leaf hp] at hblock
        have hfirst (hge : sa.boff ≤ c.sblock) : c.start = sa.boff := by
          have heq : c.sblock = sa.boff := by omega
          rw [ReadRequest.start, heq, ← hblock.2]
          rfl
        have hrun := (hpos.enter hstart hfirst).data (by rw [← hblock.1]; exact hp) rfl rfl
        rw [← hblock.1] at hrun
        simp only [rwData, Fs.diskRead]
        rw [if_neg (by simp [hpos.w])]
        refine ⟨_, rfl, ⟨hpos.w, hpos.sblock, hpos.eblock, fun hwait => ?_, fun _ => hrun⟩, rfl⟩
        dsimp only at hwait
        omega
      | succ m =>
        rw [if_neg (Nat.succ_ne_zero m)]
        have hkids := hpart.kids hp
        have hkwidth : width 128 (row m (c.fs.disk p).ptrs) = 128 ^ (m + 1) := by
          rw [width_row, Block.ptrs_length, pow_succ']
        have hrows (_ : ℕ) : Reads c m _ := hbelow m rfl
        obtain ⟨sa', hloop, hpos', hboff'⟩ :=
          reads_loop (i := 0) hrows hpos (by rw [forestFrom_const, hkwidth]; exact hroom)
          (by rw [forestFrom_const]; exact hkids)
        rw [forestFrom_const, hkwidth] at hboff'
        refine ⟨sa', ?_, hpos', hboff'⟩
        rw [rwIndirect, Fs.diskRead, hloop, ok_bind, if_pos rfl, Block.ofPtrs_ptrs]
        exact congrArg (fun d => Except.ok (RwOut.mk 0 p sa' d)) (Fs.diskWrite_diskRead c.fs p)
  · rw [if_pos hvisit]
    rw [hpos.eblock, hpos.sblock] at hvisit
    refine ⟨_, rfl, ⟨hpos.w, hpos.sblock, hpos.eblock, fun hwait => ?_, fun hrun => ?_⟩, rfl⟩
    · dsimp only at hwait ⊢
      obtain ⟨hbuf, hleft, hoff, hmem⟩ := hpos.waiting (by omega)
      refine ⟨hbuf, hleft, ?_, hmem⟩
      rw [blockSize, hbytes, u32_mod_block, Nat.add_mul_mod_self_right, hoff]
    · dsimp only at hrun
      have hle : c.sblock ≤ c.eblock := by
        simp only [ReadRequest.sblock, ReadRequest.eblock]
        omega
      exact (hpos.running (by omega)).skip (by omega) _ _

/-- The whole file is read in place. -/
theorem Part.file (c : ReadRequest) : Part c (c.fs.dinode c.inum).forest 0 := fun _ _ _ => ⟨rfl, rfl⟩

/-- `recursive_rw` reads a tree of any level. -/
theorem reads_recursiveRw {alloc : Allocator} (hl : l ≤ 2) (hstart : c.start ≤ c.sblock) :
    Reads c l (recursiveRw alloc l) := by
  induction l with
  | zero => exact reads_rwBody hl hstart (by simp)
  | succ l ih =>
    apply reads_rwBody hl hstart
    intro m hm
    cases hm
    exact ih (by omega)

/-- The missing subtree at a position covers it. -/
theorem ReadRequest.start_le (c : ReadRequest) : c.start ≤ c.sblock := by
  rw [ReadRequest.start]
  cases h : c.fs.missing c.inum c.sblock with
  | none => exact le_rfl
  | some t => exact (hole_spec Block.ptrs_length (Nat.zero_le _) h).1.1

/-- The size of a clipped request. -/
def readSize (fs : Fs) (inum sz off : ℕ) : ℕ := min sz ((fs.dinode inum).size - off)

/-- The request of `fs_read(inum, buf, sz, off)`. -/
def readRequest (fs : Fs) (inum : ℕ) (buf : Memory) (sz off : ℕ) : ReadRequest :=
  ⟨fs, inum, off, readSize fs inum sz off, buf⟩

section FsRead

variable (hinit : fs.init = true) (hlayout : fs.su.Layout) {inum : ℕ} (hi : inum < 200) (buf : Memory)
  {sz off : ℕ} (hsz : sz < 2147483648)

include hinit hlayout hi hsz

/-- A read that begins in front of the end of the file traverses the whole inode. -/
theorem fsRead_traversal (hin : off < (fs.dinode inum).size) (hend : off + sz < 4294967296) :
    ∃ sa, ReadPos (readRequest fs inum buf sz off) sa ∧ sa.boff = maxBlocks ∧
      fsRead fs inum buf sz off = .ok (int32 (sub32 (readSize fs inum sz off) sa.left), sa.mem, fs) := by
  have hbits : bits32 (sz : ℤ) = sz := bits32_natCast (by omega)
  rw [fsRead, inodeRw, hbits]
  simp only [hinit, Bool.not_true, Bool.false_eq_true, if_false, if_neg (show ¬0xefffffff < sz by omega),
    readInode_eq hinit hlayout hi, true_and]
  set size := (fs.dinode inum).size with hsz'
  rw [if_neg (Nat.not_le.mpr hin)]
  set n := readSize fs inum sz off with hn
  have hclip : (if size ≤ u32 (off + sz) then size - off else sz) = n := by
    rw [hn, readSize, u32_of_lt hend, ← hsz']
    split <;> omega
  have hebyte : (if size ≤ u32 (off + sz) then size else u32 (off + sz)) = off + n := by
    rw [← hclip, u32_of_lt hend]
    split <;> omega
  set c := readRequest fs inum buf sz off with hc
  have hstart : ReadPos c ⟨0, off / 512, (off + n) / 512, off, 0, n, false, buf⟩ :=
    ⟨rfl, rfl, rfl, fun _ => ⟨rfl, rfl, rfl, rfl⟩, fun h => absurd h (Nat.not_lt_zero _)⟩
  have hwidth : width 128 (fs.dinode inum).forest = maxBlocks :=
    Dinode.width_forest (fs.fits_dinode inum).length
  have hrw (i : ℕ) : Reads c (getIlevel i) (recursiveRw bitmapAlloc (getIlevel i)) :=
    reads_recursiveRw (getIlevel_le i) c.start_le
  have hroom : 0 + width 128 (fs.dinode inum).forest = maxBlocks := by rw [hwidth, Nat.zero_add]
  obtain ⟨sa, hloop, hpos, hboff⟩ := reads_loop hrw hstart hroom.le (Part.file c)
  refine ⟨sa, hpos, hboff.trans hroom, ?_⟩
  rw [hclip, hebyte]
  have hloop' : rwPtrs (fun i => recursiveRw bitmapAlloc (getIlevel i)) 0 (fs.dinode inum).ptrs
      ⟨0, off / blockSize, (off + n) / blockSize, off, 0, n, false, buf⟩ fs =
      .ok ⟨0, (fs.dinode inum).ptrs, sa, fs⟩ := hloop
  rw [hloop', ok_bind]

omit hsz in
/-- A read from the end of the file on returns 0 at once. -/
theorem fsRead_behind (hsz : sz ≤ 0xefffffff) (hend : (fs.dinode inum).size ≤ off) :
    fsRead fs inum buf sz off = .ok (0, buf, fs) := by
  have hbits : bits32 (sz : ℤ) = sz := bits32_natCast (by omega)
  rw [fsRead, inodeRw, hbits]
  simp only [hinit, Bool.not_true, Bool.false_eq_true, if_false, if_neg (Nat.not_lt.mpr hsz),
    readInode_eq hinit hlayout hi, true_and, if_pos hend]

/-- `fs_read` where the file or the request ends inside the addressable range: it returns the number of
bytes up to the end of the file, leaves the file system alone, and fills the buffer as described. -/
theorem fsRead_spec (hrange : (fs.dinode inum).size ≤ maxBytes ∨ off < maxBytes ∧ off + sz ≤ maxBytes) :
    fsRead fs inum buf sz off = .ok (readSize fs inum sz off, fun j =>
      if j < readSize fs inum sz off then (readRequest fs inum buf sz off).out j else buf j, fs) := by
  by_cases hend : (fs.dinode inum).size ≤ off
  · have hzero : readSize fs inum sz off = 0 := by
      rw [readSize, Nat.sub_eq_zero_of_le hend, Nat.min_zero]
    rw [fsRead_behind hinit hlayout hi buf (by omega) hend, hzero]
    simp
  · have hin := Nat.not_le.mp hend
    simp only [maxBytes, maxBlocks] at hrange
    obtain ⟨sa, hpos, hboff, hread⟩ := fsRead_traversal hinit hlayout hi buf hsz hin (by omega)
    set c := readRequest fs inum buf sz off with hc
    have hbytes : c.off + c.sz ≤ maxBytes := by
      have hsize : c.sz = min sz ((fs.dinode inum).size - off) := rfl
      have hoff : c.off = off := rfl
      simp only [maxBytes, maxBlocks]
      omega
    have hrun := hpos.running (by
      rw [hboff]
      simp only [ReadRequest.sblock, hc, readRequest, maxBlocks]
      omega)
    have hdone : c.done sa.boff = c.sz := by
      have hstart := c.start_le
      rw [hboff, ReadRequest.done]
      apply Nat.min_eq_left
      simp only [ReadRequest.avail, ReadRequest.sblock, maxBytes, maxBlocks] at hstart hbytes ⊢
      split <;> omega
    have hconsumed : sub32 c.sz sa.left = c.sz := by
      have hlt : c.sz < 4294967296 := by
        simp only [maxBytes, maxBlocks] at hbytes
        omega
      rw [hrun.left, hdone, Nat.sub_self, sub32, Nat.sub_zero, u32, Nat.add_mod_right]
      exact Nat.mod_eq_of_lt hlt
    have hmem : sa.mem = fun j => if j < c.sz then c.out j else buf j := by
      funext j
      rw [hrun.mem j, hrun.buf, hdone]
      rfl
    have hint : int32 (sub32 (readSize fs inum sz off) sa.left) = (readSize fs inum sz off : ℤ) := by
      rw [show readSize fs inum sz off = c.sz from rfl, hconsumed, int32_of_lt]
      simp only [maxBytes, maxBlocks] at hbytes
      omega
    rw [hread, hint, hmem]
    rfl

omit hsz in
/-- Reading nothing returns 0. -/
theorem fsRead_zero : ∃ mem, fsRead fs inum buf ((0 : ℕ) : ℤ) off = .ok (0, mem, fs) := by
  by_cases hend : (fs.dinode inum).size ≤ off
  · exact ⟨buf, fsRead_behind hinit hlayout hi buf (Nat.zero_le _) hend⟩
  · have hin := Nat.not_le.mp hend
    have hfits := (fs.fits_dinode inum).size
    obtain ⟨sa, hpos, hboff, hread⟩ := fsRead_traversal hinit hlayout hi buf (Nat.zero_lt_succ _) hin
      (show off + 0 < 4294967296 by omega)
    have hzero : readSize fs inum 0 off = 0 := Nat.zero_min _
    have hleft : sa.left = 0 := by
      rcases Nat.lt_or_ge (readRequest fs inum buf 0 off).sblock sa.boff with hlt | hge
      · have hleft := (hpos.running hlt).left
        rwa [show (readRequest fs inum buf 0 off).sz = 0 from hzero, Nat.zero_sub] at hleft
      · exact (hpos.waiting hge).2.1.trans hzero
    refine ⟨sa.mem, ?_⟩
    rw [hread, hzero, hleft]
    rfl

end FsRead

end Hobby386
