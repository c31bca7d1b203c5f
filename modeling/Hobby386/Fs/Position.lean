import Hobby386.Fs.ReadCount

/-!
# The place of a traversal

`recursive_rw` knows which file block a pointer covers first from `boff` alone, which each call
moves on for the next one. The calls of a traversal are listed in their order, each with the first
block of its pointer by the place of the pointer in the tree, and with the value of `boff` that it
finds.
-/

namespace Hobby386

/-! ## One call -/

/-- A call that succeeds moves `boff` by the coverage of its pointer, and takes from `left` what it
adds to `buf`. -/
structure Advances (n : ℕ) (sa sa' : ShareArg) : Prop where
  boff : sa'.boff = u32 (sa.boff + n)
  left : sa'.left ≤ sa.left
  buf : sa'.buf = sa.buf + (sa.left - sa'.left)

/-- Every call of a function that succeeds moves on by a number of blocks. -/
def AdvancesBy (n : ℕ) (rw : RwFn) : Prop :=
  ∀ (pp : ℕ) (sa : ShareArg) (fs : Fs) (r : RwOut), rw pp sa fs = .ok r → r.ret = 0 → Advances n sa r.sa

/-- Sums of 32-bit words are cut once. -/
theorem u32_add (a b : ℕ) : u32 (u32 a + b) = u32 (a + b) := by
  simp only [u32]
  omega

/-- Two advances, one after the other. -/
theorem Advances.trans {m n : ℕ} {sa sa' sa'' : ShareArg} (h : Advances m sa sa')
    (h' : Advances n sa' sa'') :
    Advances (m + n) sa sa'' where
  boff := by rw [h'.boff, h.boff, u32_add, Nat.add_assoc]
  left := h'.left.trans h.left
  buf := by
    have hbuf := h.buf
    have hbuf' := h'.buf
    have hleft := h.left
    have hleft' := h'.left
    omega

/-- A loop of calls that all succeed. -/
theorem advances_loop {n : ℕ} {rw : ℕ → RwFn} (hrw : ∀ i, AdvancesBy n (rw i)) {i : ℕ} {p : ℕ}
    {ps : List ℕ} {sa : ShareArg} {fs : Fs} {t : RwLoop} (h : rwPtrs rw i (p :: ps) sa fs = .ok t)
    (hret : t.ret = 0) :
    Advances ((p :: ps).length * n) sa t.sa := by
  induction ps generalizing i p sa fs t with
  | nil =>
    rw [rwPtrs, bind_eq_ok] at h
    obtain ⟨r, hcall, h⟩ := h
    rw [List.length_singleton, Nat.one_mul]
    split at h
    · rename_i hzero
      cases h
      exact hrw i p sa fs r hcall hzero
    · rename_i hne
      cases h
      exact absurd hret hne
  | cons q ps ih =>
    rw [rwPtrs, bind_eq_ok] at h
    obtain ⟨r, hcall, h⟩ := h
    split at h
    · rename_i hzero
      obtain ⟨t', hloop, h⟩ := bind_eq_ok.mp h
      injection h with h
      subst h
      have hlength : (p :: q :: ps).length * n = n + (q :: ps).length * n := by
        rw [List.length_cons, Nat.add_one_mul, Nat.add_comm]
      rw [hlength]
      have hrest : Advances ((q :: ps).length * n) r.sa t'.sa := ih hloop hret
      exact (hrw i p sa fs r hcall hzero).trans hrest
    · rename_i hne
      cases h
      exact absurd hret hne

/-- A hole is filled as far as there is room left. -/
theorem advances_rwHole (n : ℕ) (sa : ShareArg) :
    Advances n sa (rwHole sa.boff (u32 (sa.boff + n)) sa) := by
  refine ⟨rfl, Nat.sub_le _ _, ?_⟩
  simp only [rwHole]
  split <;> omega

/-- A data block advances the position to its end. -/
theorem advances_rwData (n pp : ℕ) (sa : ShareArg) (fs : Fs) :
    Advances n sa (rwData (u32 (sa.boff + n)) pp sa fs).sa := by
  have hclip : (if sa.left < blockSize - sa.off % blockSize then sa.left else
      blockSize - sa.off % blockSize) =
      sa.left - (sa.left - if sa.left < blockSize - sa.off % blockSize then sa.left
        else blockSize - sa.off % blockSize) := by
    split <;> omega
  rw [rwData]
  split <;> exact ⟨rfl, Nat.sub_le _ _, congrArg (sa.buf + ·) hclip⟩

/-- Whether the subtree is left out, a hole, a new block or walked, the place behind it is the same. -/
theorem advancesBy_rwBody {alloc : Allocator} {below : RwFn} {ilevel : ℕ}
    (hbelow : ilevel ≠ 0 → AdvancesBy (coverage ilevel) (rwIndirect below)) :
    AdvancesBy (coverage ilevel) (rwBody alloc below ilevel) := by
  intro pp sa fs r h hret
  rw [rwBody] at h
  split at h
  · cases h
    exact ⟨rfl, le_rfl, by rw [Nat.sub_self, Nat.add_zero]⟩
  · split at h
    · obtain ⟨a, -, h⟩ := bind_eq_ok.mp h
      split at h
      · cases h
        cases hret
      · split at h
        · cases h
          exact advances_rwData _ _ _ _
        · rename_i hlevel
          exact hbelow hlevel _ _ _ _ h hret
    · split at h
      · cases h
        exact advances_rwHole _ _
      · split at h
        · cases h
          exact advances_rwData _ _ _ _
        · rename_i hlevel
          exact hbelow hlevel _ _ _ _ h hret

/-- The pointers of an indirect block cover what its own pointer covers. -/
theorem advancesBy_rwIndirect {n : ℕ} {below : RwFn} (hbelow : AdvancesBy n below) :
    AdvancesBy (128 * n) (rwIndirect below) := by
  intro pp sa fs r h hret
  rw [rwIndirect] at h
  obtain ⟨t, hloop, h⟩ := bind_eq_ok.mp h
  have hlength := (fs.diskRead pp).ptrs_length
  cases hptrs : (fs.diskRead pp).ptrs with
  | nil =>
    rw [hptrs] at hlength
    cases hlength
  | cons p ps =>
    rw [hptrs] at hloop hlength
    split at h
    · rename_i hzero
      cases h
      have hall := advances_loop (fun _ => hbelow) hloop hzero
      rwa [hlength] at hall
    · split at h <;> cases h <;> cases hret

/-- The traversal of a pointer advances by the positions below it. -/
theorem advancesBy_recursiveRw (alloc : Allocator) {ilevel : ℕ} (hlevel : ilevel ≤ 2) :
    AdvancesBy (128 ^ ilevel) (recursiveRw alloc ilevel) := by
  rw [← coverage_eq hlevel]
  induction ilevel with
  | zero => exact advancesBy_rwBody fun h => absurd rfl h
  | succ l ih =>
    refine advancesBy_rwBody fun _ => ?_
    have hcoverage : coverage (l + 1) = 128 * coverage l := by
      rw [coverage_eq hlevel, coverage_eq (Nat.le_of_succ_le hlevel), pow_succ']
    rw [hcoverage]
    exact advancesBy_rwIndirect (ih (Nat.le_of_succ_le hlevel))

/-! ## The calls of a traversal -/

/-- The data block or the indirect block that a call goes to with the file system it finds there;
`none` when it leaves the subtree out, reads a hole or finds no free block. -/
def rwTarget (alloc : Allocator) (ilevel pp : ℕ) (sa : ShareArg) (fs : Fs) : Option (ℕ × Fs) :=
  if ¬(sa.boff ≤ sa.eblock ∧ sa.sblock < u32 (sa.boff + coverage ilevel)) then none
  else if sa.w then
    match rwAlloc alloc ilevel pp fs with
    | .ok a => if a.1 = 0 then none else some a
    | .error _ => none
  else if pp = 0 then none
  else some (pp, fs)

/-- A call above the data blocks makes the calls of its indirect block, if it goes to one, and no
others. -/
theorem rwBody_target (alloc : Allocator) (below : RwFn) {ilevel : ℕ} (hlevel : ilevel ≠ 0) (pp : ℕ)
    (sa : ShareArg) (fs : Fs) : rwBody alloc below ilevel pp sa fs =
      match rwTarget alloc ilevel pp sa fs with
      | some a => rwIndirect below a.1 sa a.2
      | none => rwBody alloc (fun _ _ _ => .error .stopped) ilevel pp sa fs := by
  rw [rwBody, rwBody, rwTarget]
  by_cases hskip : sa.boff ≤ sa.eblock ∧ sa.sblock < u32 (sa.boff + coverage ilevel)
  · rw [if_neg (not_not_intro hskip), if_neg (not_not_intro hskip), if_neg (not_not_intro hskip)]
    cases sa.w with
    | false =>
      by_cases hpp : pp = 0
      · simp [hpp]
      · simp [hpp, hlevel]
    | true =>
      cases rwAlloc alloc ilevel pp fs with
      | error e => rfl
      | ok a =>
        by_cases hfull : a.1 = 0
        · simp [hfull]
        · simp [hfull, hlevel]
  · rw [if_pos hskip, if_pos hskip, if_pos hskip]

/-- A call of `recursive_rw`: the index of its pointer, and what it gets. -/
structure RwArgs where
  i : ℕ
  pp : ℕ
  sa : ShareArg
  fs : Fs

/-- The calls that the loops `for (...; i++) if (recursive_rw(&ptrs[i], ...)) ...` make. -/
def loopCalls (rw : ℕ → RwFn) : (i : ℕ) → List ℕ → ShareArg → Fs → List RwArgs
  | _, [], _, _ => []
  | i, p :: ps, sa, fs =>
    ⟨i, p, sa, fs⟩ ::
      match rw i p sa fs with
      | .ok r => if r.ret = 0 then loopCalls rw (i + 1) ps r.sa r.fs else []
      | .error _ => []

/-- The number of file blocks that the pointers of an array in front of index `i` cover. -/
def blocksBefore (level : ℕ → ℕ) : (i : ℕ) → ℕ
  | 0 => 0
  | i + 1 => blocksBefore level i + 128 ^ level i

/-- What is seen of a call: the level and the first file block of its pointer by the place of the
pointer, the value of `boff`, and whether the call goes down to an indirect block. -/
structure RwCall where
  ilevel : ℕ
  first : ℕ
  boff : ℕ
  descends : Bool

/-- The file blocks that a call visits itself, data blocks as well as blocks that it leaves out. -/
def RwCall.blocks (c : RwCall) : List ℕ := if c.descends then [] else List.range' c.boff (128 ^ c.ilevel)

/-- A call of `recursive_rw` and all calls inside of it, in their order. -/
def rwCalls (alloc : Allocator) : (ilevel first pp : ℕ) → ShareArg → Fs → List RwCall
  | 0, first, _, sa, _ => [⟨0, first, sa.boff, false⟩]
  | ilevel + 1, first, pp, sa, fs =>
    match rwTarget alloc (ilevel + 1) pp sa fs with
    | none => [⟨ilevel + 1, first, sa.boff, false⟩]
    | some a =>
      ⟨ilevel + 1, first, sa.boff, true⟩ ::
        (loopCalls (fun _ => recursiveRw alloc ilevel) 0 (a.2.diskRead a.1).ptrs sa a.2).flatMap fun c =>
          rwCalls alloc ilevel (first + blocksBefore (fun _ => ilevel) c.i) c.pp c.sa c.fs

/-- Calls that find `boff` at the first block of their pointers, and that visit blocks one after
another. -/
structure InPlace (boff n : ℕ) (cs : List RwCall) : Prop where
  first : ∀ c ∈ cs, c.boff = c.first
  blocks : cs.flatMap RwCall.blocks = List.range' boff n

/-- Calls in place for two ranges, one behind the other. -/
theorem InPlace.append {boff m n : ℕ} {cs ds : List RwCall} (h : InPlace boff m cs)
    (h' : InPlace (boff + m) n ds) :
    InPlace boff (m + n) (cs ++ ds) where
  first c hc := (List.mem_append.mp hc).elim (h.first c) (h'.first c)
  blocks := by rw [List.flatMap_append, h.blocks, h'.blocks, List.range'_append_1]

/-- No calls for an empty range. -/
theorem InPlace.nil (boff : ℕ) : InPlace boff 0 [] where
  first _ hc := absurd hc List.not_mem_nil
  blocks := rfl

/-- A call that does not go down. -/
theorem InPlace.leaf (ilevel boff : ℕ) : InPlace boff (128 ^ ilevel) [⟨ilevel, boff, boff, false⟩] where
  first _ hc := by rw [List.mem_singleton.mp hc]
  blocks := List.append_nil _

/-- A call that goes down visits the blocks that the calls inside of it visit. -/
theorem InPlace.node (ilevel : ℕ) {boff n : ℕ} {cs : List RwCall} (h : InPlace boff n cs) :
    InPlace boff n (⟨ilevel, boff, boff, true⟩ :: cs) where
  first := List.forall_mem_cons.mpr ⟨rfl, h.first⟩
  blocks := h.blocks

/-- The positions in front of a pointer grow with its index. -/
theorem blocksBefore_mono (level : ℕ → ℕ) : Monotone (blocksBefore level) :=
  monotone_nat_of_le_succ fun _ => Nat.le_add_right _ _

/-- The positions in front of a pointer of a row. -/
theorem blocksBefore_const (l i : ℕ) : blocksBefore (fun _ => l) i = i * 128 ^ l := by
  induction i with
  | zero => rw [blocksBefore, Nat.zero_mul]
  | succ i ih => rw [blocksBefore, ih, Nat.add_one_mul]

/-- The calls of a loop are in place when those inside of each one are. -/
theorem inPlace_loop {alloc : Allocator} {level : ℕ → ℕ} (first : ℕ) (hlevel : ∀ i, level i ≤ 2)
    (hcalls : ∀ (i pp : ℕ) (sa : ShareArg) (fs : Fs), sa.boff + 128 ^ level i < 4294967296 →
      ∃ n, InPlace sa.boff n (rwCalls alloc (level i) sa.boff pp sa fs) ∧
        ∀ r, recursiveRw alloc (level i) pp sa fs = .ok r → r.ret = 0 → n = 128 ^ level i)
    (ps : List ℕ) {i : ℕ} {sa : ShareArg} (fs : Fs) (hboff : sa.boff = first + blocksBefore level i)
    (hroom : first + blocksBefore level (i + ps.length) < 4294967296) :
    ∃ n, InPlace sa.boff n ((loopCalls (fun i => recursiveRw alloc (level i)) i ps sa fs).flatMap
      fun c =>
        rwCalls alloc (level c.i) (first + blocksBefore level c.i) c.pp c.sa c.fs) ∧
      ∀ t, rwPtrs (fun i => recursiveRw alloc (level i)) i ps sa fs = .ok t → t.ret = 0 →
        sa.boff + n = first + blocksBefore level (i + ps.length) := by
  induction ps generalizing i sa fs with
  | nil => exact ⟨0, .nil _, fun _ _ _ => hboff⟩
  | cons p ps ih =>
    have hlength : i + (p :: ps).length = i + 1 + ps.length := by
      rw [List.length_cons, Nat.add_assoc, Nat.add_comm 1]
    rw [hlength] at hroom ⊢
    have hend : sa.boff + 128 ^ level i = first + blocksBefore level (i + 1) := by
      rw [hboff, Nat.add_assoc, blocksBefore]
    have hmono : blocksBefore level (i + 1) ≤ blocksBefore level (i + 1 + ps.length) :=
      blocksBefore_mono level (Nat.le_add_right _ _)
    obtain ⟨n, hplace, hn⟩ := hcalls i p sa fs (by omega)
    have hcall := advancesBy_recursiveRw alloc (hlevel i) p sa fs
    rw [loopCalls, List.flatMap_cons, ← hboff, rwPtrs]
    cases hresult : recursiveRw alloc (level i) p sa fs with
    | error e =>
      refine ⟨n, by rwa [List.flatMap_nil, List.append_nil], fun t ht _ => ?_⟩
      cases ht
    | ok r =>
      dsimp only
      rw [ok_bind]
      by_cases hzero : r.ret = 0
      · have hnext := (hcall r hresult hzero).boff
        rw [u32_of_lt (by omega)] at hnext
        obtain ⟨m, hrest, hm⟩ := ih r.fs (hnext.trans hend) hroom
        rw [hn r hresult hzero] at hplace
        rw [hnext] at hrest hm
        rw [if_pos hzero, if_pos hzero]
        refine ⟨_, hplace.append hrest, fun t ht hret => ?_⟩
        obtain ⟨t', hloop, ht⟩ := bind_eq_ok.mp ht
        cases ht
        rw [← hm t' hloop hret, Nat.add_assoc]
      · rw [if_neg hzero, if_neg hzero]
        refine ⟨n, by rwa [List.flatMap_nil, List.append_nil], fun t ht hret => ?_⟩
        cases ht
        exact absurd hret hzero

/-- A call and all calls inside of it are in place when it finds `boff` in place. -/
theorem inPlace_rwCalls (alloc : Allocator) {ilevel : ℕ} (hlevel : ilevel ≤ 2) (pp : ℕ)
    (sa : ShareArg) (fs : Fs) (hroom : sa.boff + 128 ^ ilevel < 4294967296) :
    ∃ n, InPlace sa.boff n (rwCalls alloc ilevel sa.boff pp sa fs) ∧
      ∀ r, recursiveRw alloc ilevel pp sa fs = .ok r → r.ret = 0 → n = 128 ^ ilevel := by
  induction ilevel generalizing pp sa fs with
  | zero => exact ⟨1, .leaf 0 _, fun _ _ _ => rfl⟩
  | succ l ih =>
    have hbody := rwBody_target alloc (recursiveRw alloc l) l.succ_ne_zero pp sa fs
    rw [rwCalls, recursiveRw, hbody]
    cases rwTarget alloc (l + 1) pp sa fs with
    | none => exact ⟨_, .leaf _ _, fun _ _ _ => rfl⟩
    | some a =>
      have hcover : blocksBefore (fun _ => l) (0 + (a.2.diskRead a.1).ptrs.length) = 128 ^ (l + 1) := by
        rw [(a.2.diskRead a.1).ptrs_length, Nat.zero_add, blocksBefore_const, pow_succ']
      have hbelow := Nat.le_of_succ_le hlevel
      have hstart : sa.boff = sa.boff + blocksBefore (fun _ => l) 0 := rfl
      obtain ⟨n, hplace, hn⟩ :=
        inPlace_loop sa.boff (fun _ => hbelow) (fun _ pp sa fs h => ih hbelow pp sa fs h)
        (a.2.diskRead a.1).ptrs a.2 hstart (by rwa [hcover])
      refine ⟨n, hplace.node (l + 1), fun r hr hret => ?_⟩
      dsimp only at hr
      rw [rwIndirect] at hr
      obtain ⟨t, hloop, hr⟩ := bind_eq_ok.mp hr
      split at hr
      · rename_i hzero
        have hall := hn t hloop hzero
        rw [hcover] at hall
        exact Nat.add_left_cancel hall
      · split at hr <;> cases hr <;> cases hret

/-! ## The calls of `inode_rw` -/

/-- The pointers, the shared record and the file system with which `inode_rw` enters its loop, if it
does. -/
def inodeStart (fs : Fs) (inum : ℕ) (buf : Memory) (sz : ℤ) (off : ℕ) (w : Bool) :
    Option (List ℕ × ShareArg × Fs) :=
  if !fs.init then none
  else if 0xefffffff < bits32 sz then none
  else
    match readInode fs inum with
    | (none, _) => none
    | (some di, fs) =>
      if w = false ∧ di.size ≤ off then none
      else
        let clip := w = false ∧ di.size ≤ u32 (off + bits32 sz)
        let left := if clip then di.size - off else bits32 sz
        let ebyte := if clip then di.size else u32 (off + bits32 sz)
        some (di.ptrs, ⟨0, off / blockSize, ebyte / blockSize, off, 0, left, w, buf⟩, fs)

/-- All calls of `recursive_rw` that `inode_rw` makes. -/
def inodeCalls (alloc : Allocator) (fs : Fs) (inum : ℕ) (buf : Memory) (sz : ℤ) (off : ℕ)
    (w : Bool) : List RwCall :=
  match inodeStart fs inum buf sz off w with
  | none => []
  | some s =>
    (loopCalls (fun i => recursiveRw alloc (getIlevel i)) 0 s.1 s.2.1 s.2.2).flatMap fun c =>
      rwCalls alloc (getIlevel c.i) (blocksBefore getIlevel c.i) c.pp c.sa c.fs

/-- `inode_rw` calls `recursive_rw` in its loop only. -/
theorem inodeRw_start (fs : Fs) (inum : ℕ) (buf : Memory) (sz : ℤ) (off : ℕ) (w : Bool) :
    match inodeStart fs inum buf sz off w with
    | some s => ∃ finish : RwLoop → Except Fault (ℤ × Memory × Fs), ∀ alloc,
        inodeRw alloc fs inum buf sz off w =
        rwPtrs (fun i => recursiveRw alloc (getIlevel i)) 0 s.1 s.2.1 s.2.2 >>= finish
    | none => ∃ r, ∀ alloc, inodeRw alloc fs inum buf sz off w = .ok r := by
  simp only [inodeRw, inodeStart]
  by_cases hinit : (!fs.init) = true
  · simp only [if_pos hinit]
    exact ⟨_, fun _ => rfl⟩
  simp only [if_neg hinit]
  by_cases hsz : 0xefffffff < bits32 sz
  · simp only [if_pos hsz]
    exact ⟨_, fun _ => rfl⟩
  simp only [if_neg hsz]
  obtain ⟨di, fs'⟩ := readInode fs inum
  cases di with
  | none => exact ⟨_, fun _ => rfl⟩
  | some di =>
    dsimp only
    by_cases hend : w = false ∧ di.size ≤ off
    · simp only [if_pos hend]
      exact ⟨_, fun _ => rfl⟩
    · simp only [if_neg hend]
      exact ⟨_, fun _ => rfl⟩

/-- A loop starts at file block 0 with the pointers of an inode. -/
theorem inodeStart_eq {fs : Fs} {inum : ℕ} {buf : Memory} {sz : ℤ} {off : ℕ} {w : Bool}
    {s : List ℕ × ShareArg × Fs} (h : inodeStart fs inum buf sz off w = some s) : s.1.length = 13 ∧
    s.2.1.boff = 0 := by
  have hread : ∀ di, (readInode fs inum).1 = some di → di.ptrs.length = 13 := by
    intro di hdi
    rw [readInode, rwInode] at hdi
    split at hdi
    · cases hdi
    · split at hdi
      · cases hdi
      · cases hdi
        exact (Block.fits_inode _ _).length
  rw [inodeStart] at h
  split at h
  · cases h
  split at h
  · cases h
  cases hdi : readInode fs inum with
  | mk di fs' =>
    rw [hdi] at h hread
    cases di with
    | none => cases h
    | some di =>
      dsimp only at h
      split at h
      · cases h
      · cases h
        exact ⟨hread di rfl, rfl⟩

/-- `recursive_rw` moves on by what its pointer covers whenever it succeeds, and takes from `left`
what it adds to `buf`. So every pointer in a file is processed with `boff` being the first file
block that it covers, and the file blocks are visited from the first one on, each once. -/
theorem traversal_position (alloc : Allocator) :
    (∀ ilevel ≤ 2, AdvancesBy (128 ^ ilevel) (recursiveRw alloc ilevel)) ∧
    ∀ (fs : Fs) (inum : ℕ) (buf : Memory) (sz : ℤ) (off : ℕ) (w : Bool),
      (∀ c ∈ inodeCalls alloc fs inum buf sz off w, c.boff = c.first) ∧
      ∃ n, (inodeCalls alloc fs inum buf sz off w).flatMap RwCall.blocks = List.range n := by
  refine ⟨fun ilevel hlevel => advancesBy_recursiveRw alloc hlevel, fun fs inum buf sz off w => ?_⟩
  rw [inodeCalls]
  cases hstart : inodeStart fs inum buf sz off w with
  | none => exact ⟨fun _ hc => absurd hc List.not_mem_nil, 0, rfl⟩
  | some s =>
    obtain ⟨hlength, hboff⟩ := inodeStart_eq hstart
    have hroom : 0 + blocksBefore getIlevel (0 + s.1.length) < 4294967296 := by
      rw [hlength]
      decide
    obtain ⟨n, hplace, -⟩ := inPlace_loop 0 getIlevel_le
      (fun i pp sa fs h => inPlace_rwCalls alloc (getIlevel_le i) pp sa fs h) s.1 s.2.2 hboff hroom
    simp only [Nat.zero_add] at hplace
    rw [hboff] at hplace
    exact ⟨hplace.first, n, hplace.blocks.trans List.range_eq_range'.symm⟩

end Hobby386
