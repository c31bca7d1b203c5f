import Hobby386.Fs.WritePosition

/-!
# What a write does to a forest of pointers

The effect of a traversal is described for any forest of pointers, and composed from the
effects on its trees. Which blocks are allocated is known in advance: the null pointers on the
paths to the block range, in preorder, receive the free blocks in ascending order until one of
the two lists ends. Blocks that the forest does not own before or after the call, the bitmap
block apart, keep their contents.
-/

namespace Hobby386

open PointerForest

/-- `cnt` counts owners of blocks soundly: a block has at most one owner, and an owned block lies
in the data area and is marked in the bitmap. -/
def Accounts (su : Superblock) (d : Disk) (cnt : ℕ → ℕ) : Prop :=
  ∀ n, cnt n ≤ 1 ∧ (0 < cnt n → su.InData n ∧ marked su d n = true)

/-- A free block has no owner. -/
theorem Accounts.eq_zero_of_free {su : Superblock} {d : Disk} {cnt : ℕ → ℕ} (h : Accounts su d cnt)
    {n : ℕ} (hn : n ∈ freeBlocks su d) : cnt n = 0 := by
  by_contra hne
  have hmarked := ((h n).2 (Nat.pos_of_ne_zero hne)).2
  rw [(of_mem_freeBlocks hn).2] at hmarked
  exact Bool.false_ne_true hmarked

/-- The effect of a write on the forest `F` at file block `B`. -/
structure WriteResult (c : WriteRequest) (F : Forest) (B : ℕ) (fs : Fs) (ret : ℤ) (F' : Forest)
    (sa' : ShareArg) (fs' : Fs) : Prop where
  same : fs' = { fs with disk := fs'.disk }
  heights : F'.map Prod.fst = F.map Prod.fst
  small : (∀ t ∈ F, t.2 < 4294967296) → ∀ t ∈ F', t.2 < 4294967296
  pos : WritePos c sa'
  finished : ret = 0 → sa'.boff = B + width 128 F ∧
    (need Block.ptrs 128 fs.disk c.sblock c.eblock F B).length ≤ (freeBlocks fs.su fs.disk).length
  stopped : ret ≠ 0 → B ≤ sa'.boff ∧ sa'.boff < B + width 128 F ∧
    (freeBlocks fs.su fs.disk).length < (need Block.ptrs 128 fs.disk c.sblock c.eblock F B).length
  free : freeBlocks fs.su fs'.disk =
    (freeBlocks fs.su fs.disk).drop (need Block.ptrs 128 fs.disk c.sblock c.eblock F B).length
  marked : ∀ n, fs.su.sdata ≤ n → marked fs.su fs'.disk n = (marked fs.su fs.disk n ||
    decide (n ∈ (freeBlocks fs.su fs.disk).take
      (need Block.ptrs 128 fs.disk c.sblock c.eblock F B).length))
  owned : ∀ n, refs Block.ptrs fs'.disk F' n = refs Block.ptrs fs.disk F n +
    ((freeBlocks fs.su fs.disk).take (need Block.ptrs 128 fs.disk c.sblock c.eblock F B).length).count n
  frame : ∀ m, m ≠ fs.su.sbitmap → refs Block.ptrs fs'.disk F' m = 0 → fs'.disk m = fs.disk m
  kept : ∀ k, B ≤ k → lookup Block.ptrs 128 fs.disk F B k ≠ 0 →
    lookup Block.ptrs 128 fs'.disk F' B k = lookup Block.ptrs 128 fs.disk F B k
  mapped : ∀ k q, B ≤ k → k < B + width 128 F → lookup Block.ptrs 128 fs.disk F B k = 0 → q ≠ 0 →
    (lookup Block.ptrs 128 fs'.disk F' B k = q ↔
      ((0, k), q) ∈ (need Block.ptrs 128 fs.disk c.sblock c.eblock F B).zip (freeBlocks fs.su fs.disk))
  before : ∀ k, B ≤ k → k < sa'.boff → lookup Block.ptrs 128 fs'.disk F' B k ≠ 0 → ∀ r < 512,
    (fs'.disk (lookup Block.ptrs 128 fs'.disk F' B k)).get r =
      if c.Covers (512 * k + r) then c.src (512 * k + r - c.off)
      else (fs.disk (lookup Block.ptrs 128 fs'.disk F' B k)).get r
  after : ∀ k, sa'.boff ≤ k → k < B + width 128 F →
    lookup Block.ptrs 128 fs'.disk F' B k = lookup Block.ptrs 128 fs.disk F B k ∧
      (lookup Block.ptrs 128 fs.disk F B k ≠ 0 →
        fs'.disk (lookup Block.ptrs 128 fs.disk F B k) = fs.disk (lookup Block.ptrs 128 fs.disk F B k))
  covered : ∀ k, B ≤ k → k < sa'.boff → c.sblock ≤ k → k ≤ c.eblock →
    lookup Block.ptrs 128 fs'.disk F' B k ≠ 0

section Sequence

variable {c : WriteRequest} {F F' : Forest} {t t' : ℕ × ℕ} {B : ℕ} {fs fs₁ fs₂ : Fs} {ret : ℤ}
  {sa₁ sa₂ : ShareArg} {rest : ℕ → ℕ}

/-- A traversal of no pointers does nothing. -/
theorem WriteResult.nil (hpos : WritePos c sa₁) (hboff : sa₁.boff = B) :
    WriteResult c [] B fs 0 [] sa₁ fs where
  same := rfl
  heights := rfl
  small := by simp
  pos := hpos
  finished := by simp [hboff]
  stopped := by simp
  free := by simp
  marked := by simp
  owned := by simp
  frame := by simp
  kept := fun k _ h => absurd rfl h
  mapped := fun k q hk hk' => by simp at hk'; omega
  before := fun k hk hk' => by omega
  after := fun k hk hk' => by simp at hk'; omega
  covered := fun k hk hk' => by omega

/-- Every block the forest owns after the write lies in the data area. -/
theorem WriteResult.inData (hacc : Accounts fs.su fs.disk fun n => refs Block.ptrs fs.disk F n + rest n)
    (h : WriteResult c F B fs ret F' sa₁ fs₁) {n : ℕ} (hn : 0 < refs Block.ptrs fs₁.disk F' n) :
    fs.su.InData n := by
  rw [h.owned n] at hn
  by_cases hold : 0 < refs Block.ptrs fs.disk F n
  · exact ((hacc n).2 (by beta_reduce; omega)).1
  · have hmem := List.count_pos_iff.mp (show 0 < List.count n ((freeBlocks fs.su fs.disk).take
      (need Block.ptrs 128 fs.disk c.sblock c.eblock F B).length) by omega)
    exact (of_mem_freeBlocks (List.mem_of_mem_take hmem)).1

/-- A block owned by someone else is not owned by the forest after the write. -/
theorem WriteResult.disjoint
    (hacc : Accounts fs.su fs.disk fun n => refs Block.ptrs fs.disk F n + rest n)
    (h : WriteResult c F B fs ret F' sa₁ fs₁) {n : ℕ} (hn : 0 < rest n) :
    refs Block.ptrs fs₁.disk F' n = 0 := by
  obtain ⟨hone, hin⟩ := hacc n
  beta_reduce at hone hin
  have hfree : n ∉ freeBlocks fs.su fs.disk := by
    intro hfree
    have hmarked := (hin (by omega)).2
    rw [(of_mem_freeBlocks hfree).2] at hmarked
    exact Bool.false_ne_true hmarked
  rw [h.owned n, List.count_eq_zero_of_not_mem (fun hmem => hfree (List.mem_of_mem_take hmem))]
  omega

/-- A block owned by someone else keeps its contents. -/
theorem WriteResult.frame_other (hlayout : fs.su.Layout)
    (hacc : Accounts fs.su fs.disk fun n => refs Block.ptrs fs.disk F n + rest n)
    (h : WriteResult c F B fs ret F' sa₁ fs₁) {n : ℕ} (hn : 0 < rest n) :
    fs₁.disk n = fs.disk n := by
  have hsb := hlayout.sbitmap
  have hsd := hlayout.sdata
  have hdata := ((hacc n).2 (by beta_reduce; omega)).1.1
  exact h.frame n (by omega) (h.disjoint hacc hn)

/-- The owners outside the first tree are the other trees and the rest. -/
theorem Accounts.split_head
    (hacc : Accounts fs.su fs.disk fun n => refs Block.ptrs fs.disk (t :: F) n + rest n) :
    Accounts fs.su fs.disk fun n =>
      refs Block.ptrs fs.disk [t] n + (refs Block.ptrs fs.disk F n + rest n) := by
  intro n
  have h := hacc n
  beta_reduce at h ⊢
  rwa [refs_split, Nat.add_assoc] at h

/-- A write to the first tree leaves the blocks of the other trees alone. -/
theorem WriteResult.frame_rest (hlayout : fs.su.Layout)
    (hacc : Accounts fs.su fs.disk fun n => refs Block.ptrs fs.disk (t :: F) n + rest n)
    (h₁ : WriteResult c [t] B fs ret [t'] sa₁ fs₁) {m : ℕ} (hm : 0 < refs Block.ptrs fs.disk F m) :
    fs₁.disk m = fs.disk m :=
  h₁.frame_other hlayout hacc.split_head (Nat.add_pos_left hm _)

/-- Ownership stays sound for the other trees. -/
theorem WriteResult.accounts_rest (hlayout : fs.su.Layout)
    (hacc : Accounts fs.su fs.disk fun n => refs Block.ptrs fs.disk (t :: F) n + rest n)
    (h₁ : WriteResult c [t] B fs ret [t'] sa₁ fs₁) :
    Accounts fs₁.su fs₁.disk fun n =>
      refs Block.ptrs fs₁.disk F n + (refs Block.ptrs fs₁.disk [t'] n + rest n) := by
  have hsu : fs₁.su = fs.su := by rw [h₁.same]
  rw [hsu]
  intro n
  have hF : refs Block.ptrs fs₁.disk F n = refs Block.ptrs fs.disk F n :=
    refs_frame (fun m hm => h₁.frame_rest hlayout hacc hm) n
  have hsplit : refs Block.ptrs fs.disk (t :: F) n =
      refs Block.ptrs fs.disk [t] n + refs Block.ptrs fs.disk F n := by
    simp
  have hold := hacc n
  beta_reduce at hold ⊢
  rw [hsplit] at hold
  rw [hF, h₁.owned n]
  by_cases hfree : n ∈ freeBlocks fs.su fs.disk
  · have hzero := hacc.eq_zero_of_free hfree
    beta_reduce at hzero
    rw [hsplit] at hzero
    have hle := List.nodup_iff_count_le_one.mp
      ((nodup_freeBlocks fs.su fs.disk).sublist (List.take_sublist
        (need Block.ptrs 128 fs.disk c.sblock c.eblock [t] B).length (freeBlocks fs.su fs.disk))) n
    refine ⟨by omega, fun hpos => ?_⟩
    have hmem : n ∈ (freeBlocks fs.su fs.disk).take
        (need Block.ptrs 128 fs.disk c.sblock c.eblock [t] B).length :=
      List.count_pos_iff.mp (by omega)
    have hdata := (of_mem_freeBlocks hfree).1
    refine ⟨hdata, ?_⟩
    rw [h₁.marked n hdata.1, decide_eq_true hmem, Bool.or_true]
  · have hcount : ((freeBlocks fs.su fs.disk).take
        (need Block.ptrs 128 fs.disk c.sblock c.eblock [t] B).length).count n = 0 :=
      List.count_eq_zero_of_not_mem fun h => hfree (List.mem_of_mem_take h)
    refine ⟨by omega, fun hpos => ?_⟩
    obtain ⟨hdata, hmarked⟩ := hold.2 (by omega)
    refine ⟨hdata, ?_⟩
    rw [h₁.marked n hdata.1, hmarked, Bool.true_or]

/-- When the first tree runs out of free blocks, the others are left as they are. -/
theorem WriteResult.cons_stop (hlayout : fs.su.Layout)
    (hacc : Accounts fs.su fs.disk fun n => refs Block.ptrs fs.disk (t :: F) n + rest n)
    (h₁ : WriteResult c [t] B fs ret [t'] sa₁ fs₁) (hret : ret ≠ 0) :
    WriteResult c (t :: F) B fs ret (t' :: F) sa₁ fs₁ := by
  have hrest (m : ℕ) (hm : 0 < refs Block.ptrs fs.disk F m) := h₁.frame_rest hlayout hacc hm
  obtain ⟨hlow, hhigh, hshort⟩ := h₁.stopped hret
  have hheight : t'.1 = t.1 := by simpa using h₁.heights
  rw [width_cons, width_nil, Nat.add_zero] at hhigh
  have htake : (freeBlocks fs.su fs.disk).take
      (need Block.ptrs 128 fs.disk c.sblock c.eblock (t :: F) B).length =
      (freeBlocks fs.su fs.disk).take (need Block.ptrs 128 fs.disk c.sblock c.eblock [t] B).length := by
    rw [need_split, List.length_append, List.take_of_length_le (by omega),
      List.take_of_length_le (by omega)]
  have hzip : (need Block.ptrs 128 fs.disk c.sblock c.eblock (t :: F) B).zip (freeBlocks fs.su fs.disk) =
      (need Block.ptrs 128 fs.disk c.sblock c.eblock [t] B).zip (freeBlocks fs.su fs.disk) := by
    rw [need_split, FirstFit.zip_append_left, List.drop_of_length_le (by omega), List.zip_nil_right,
      List.append_nil]
  have htail {k : ℕ} (hk : B + 128 ^ t.1 ≤ k) :
      lookup Block.ptrs 128 fs₁.disk (t' :: F) B k = lookup Block.ptrs 128 fs.disk (t :: F) B k := by
    rw [lookup_tail hk, lookup_tail (by rwa [hheight]), hheight, lookup_frame hrest]
  have hhead {k : ℕ} (hk : k < B + 128 ^ t.1) :
      lookup Block.ptrs 128 fs₁.disk (t' :: F) B k = lookup Block.ptrs 128 fs₁.disk [t'] B k :=
    lookup_head (by rwa [hheight])
  constructor
  case same => exact h₁.same
  case heights => rw [List.map_cons, List.map_cons, hheight]
  case small =>
    intro hfit u hu
    rcases List.mem_cons.mp hu with rfl | hu
    · exact h₁.small (by simpa using hfit t List.mem_cons_self) u (by simp)
    · exact hfit u (List.mem_cons_of_mem t hu)
  case pos => exact h₁.pos
  case finished => exact fun h => absurd h hret
  case stopped =>
    refine fun _ => ⟨hlow, ?_, ?_⟩
    · rw [width_cons]
      omega
    · rw [need_split, List.length_append]
      omega
  case free =>
    rw [h₁.free, need_split (F := F), List.length_append, List.drop_of_length_le (by omega),
      List.drop_of_length_le (by omega)]
  case marked =>
    intro n hn
    rw [h₁.marked n hn, htake]
  case owned =>
    intro n
    rw [refs_split, h₁.owned n, refs_split (F := F), refs_frame hrest, htake]
    omega
  case frame =>
    intro m hm hzero
    rw [refs_split] at hzero
    exact h₁.frame m hm (by omega)
  case kept =>
    intro k hk hne
    rcases Nat.lt_or_ge k (B + 128 ^ t.1) with hlt | hge
    · rw [lookup_head hlt] at hne ⊢
      rw [hhead hlt]
      exact h₁.kept k hk hne
    · exact htail hge
  case mapped =>
    intro k q hk hk' hzero hq
    rw [hzip]
    rcases Nat.lt_or_ge k (B + 128 ^ t.1) with hlt | hge
    · rw [hhead hlt]
      exact h₁.mapped k q hk (by simpa using hlt) (by rwa [lookup_head hlt] at hzero) hq
    · rw [htail hge, hzero]
      refine iff_of_false (fun h => hq h.symm) fun h => ?_
      have hrange := need_range_of_mem_zip (by decide) Block.ptrs_length h
      simp only [width_cons, width_nil] at hrange
      omega
  case before =>
    intro k hk hk' hne r hr
    have hlt : k < B + 128 ^ t.1 := by omega
    rw [hhead hlt] at hne ⊢
    exact h₁.before k hk hk' hne r hr
  case after =>
    intro k hk hk'
    rcases Nat.lt_or_ge k (B + 128 ^ t.1) with hlt | hge
    · rw [lookup_head hlt, hhead hlt]
      exact h₁.after k hk (by simpa using hlt)
    · rw [htail hge]
      refine ⟨rfl, fun hne => ?_⟩
      rw [lookup_tail hge] at hne ⊢
      exact hrest _ (refs_lookup hne)
  case covered =>
    intro k hk hk' hs he
    rw [hhead (by omega)]
    exact h₁.covered k hk hk' hs he

/-- The effects on the first tree and on the other trees add up. -/
theorem WriteResult.cons (hlayout : fs.su.Layout)
    (hacc : Accounts fs.su fs.disk fun n => refs Block.ptrs fs.disk (t :: F) n + rest n)
    (h₁ : WriteResult c [t] B fs 0 [t'] sa₁ fs₁)
    (h₂ : WriteResult c F (B + 128 ^ t.1) fs₁ ret F' sa₂ fs₂) :
    WriteResult c (t :: F) B fs ret (t' :: F') sa₂ fs₂ := by
  have hsu : fs₁.su = fs.su := by rw [h₁.same]
  have hrest (m : ℕ) (hm : 0 < refs Block.ptrs fs.disk F m) := h₁.frame_rest hlayout hacc hm
  have hacc₁ := h₁.accounts_rest hlayout hacc
  have hfirst (m : ℕ) (hm : 0 < refs Block.ptrs fs₁.disk [t'] m) : fs₂.disk m = fs₁.disk m :=
    h₂.frame_other (hsu ▸ hlayout) hacc₁ (Nat.add_pos_left hm _)
  have hlast (m : ℕ) (hm : 0 < refs Block.ptrs fs₂.disk F' m) : fs₁.disk m = fs.disk m := by
    have hsb := hlayout.sbitmap
    have hsd := hlayout.sdata
    have hdata := (h₂.inData hacc₁ hm).1
    rw [hsu] at hdata
    refine h₁.frame m (by omega) ?_
    by_contra hne
    have hzero := h₂.disjoint hacc₁ (Nat.add_pos_left (Nat.pos_of_ne_zero hne) (rest m))
    omega
  obtain ⟨hboff, hlong⟩ := h₁.finished rfl
  rw [width_cons, width_nil, Nat.add_zero] at hboff
  have hheight : t'.1 = t.1 := by simpa using h₁.heights
  have hneed : need Block.ptrs 128 fs₁.disk c.sblock c.eblock F (B + 128 ^ t.1) =
      need Block.ptrs 128 fs.disk c.sblock c.eblock F (B + 128 ^ t.1) := need_frame hrest _
  have hhead {k : ℕ} (hk : k < B + 128 ^ t.1) :
      lookup Block.ptrs 128 fs₂.disk (t' :: F') B k = lookup Block.ptrs 128 fs₁.disk [t'] B k := by
    rw [lookup_head (by rwa [hheight]), lookup_frame hfirst]
  have htail {k : ℕ} (hk : B + 128 ^ t.1 ≤ k) :
      lookup Block.ptrs 128 fs₂.disk (t' :: F') B k =
        lookup Block.ptrs 128 fs₂.disk F' (B + 128 ^ t.1) k := by
    rw [lookup_tail (by rwa [hheight]), hheight]
  have htail₁ (k : ℕ) : lookup Block.ptrs 128 fs₁.disk F (B + 128 ^ t.1) k =
      lookup Block.ptrs 128 fs.disk F (B + 128 ^ t.1) k := lookup_frame hrest _ _
  have hfree₁ := h₁.free
  have htake : (freeBlocks fs.su fs.disk).take
      (need Block.ptrs 128 fs.disk c.sblock c.eblock (t :: F) B).length =
      (freeBlocks fs.su fs.disk).take (need Block.ptrs 128 fs.disk c.sblock c.eblock [t] B).length ++
        (freeBlocks fs.su fs₁.disk).take
          (need Block.ptrs 128 fs.disk c.sblock c.eblock F (B + 128 ^ t.1)).length := by
    rw [need_split, List.length_append, List.take_add, hfree₁]
  have hzip : (need Block.ptrs 128 fs.disk c.sblock c.eblock (t :: F) B).zip (freeBlocks fs.su fs.disk) =
      (need Block.ptrs 128 fs.disk c.sblock c.eblock [t] B).zip (freeBlocks fs.su fs.disk) ++
        (need Block.ptrs 128 fs.disk c.sblock c.eblock F (B + 128 ^ t.1)).zip
          (freeBlocks fs.su fs₁.disk) := by
    rw [need_split, FirstFit.zip_append_left, hfree₁]
  have hlen : (freeBlocks fs.su fs₁.disk).length = (freeBlocks fs.su fs.disk).length -
      (need Block.ptrs 128 fs.disk c.sblock c.eblock [t] B).length := by
    rw [hfree₁, List.length_drop]
  obtain ⟨hsame₂, hheights₂, hsmall₂, hpos₂, hfin₂, hstop₂, hfree₂, hmarked₂, howned₂, hframe₂, hkept₂,
    hmapped₂, hbefore₂, hafter₂, hcovered₂⟩ := h₂
  rw [hneed, hsu] at hfin₂ hstop₂ hfree₂ hmarked₂ howned₂ hmapped₂
  simp only [htail₁] at hkept₂ hmapped₂ hafter₂
  constructor
  case same => rw [hsame₂, h₁.same]
  case heights => rw [List.map_cons, List.map_cons, hheight, hheights₂]
  case small =>
    intro hfit u hu
    rcases List.mem_cons.mp hu with rfl | hu
    · exact h₁.small (by simpa using hfit t List.mem_cons_self) u (by simp)
    · exact hsmall₂ (fun v hv => hfit v (List.mem_cons_of_mem t hv)) u hu
  case pos => exact hpos₂
  case finished =>
    intro h
    obtain ⟨hb, hl⟩ := hfin₂ h
    rw [width_cons, need_split, List.length_append]
    omega
  case stopped =>
    intro h
    obtain ⟨hb, hb', hl⟩ := hstop₂ h
    have hw : 0 < 128 ^ t.1 := Nat.pow_pos (by decide)
    rw [width_cons, need_split, List.length_append]
    omega
  case free => rw [hfree₂, hfree₁, need_split (F := F), List.length_append, List.drop_drop]
  case marked =>
    intro n hn
    rw [hmarked₂ n hn, h₁.marked n hn, htake, Bool.or_assoc]
    congr 1
    simp only [List.mem_append, Bool.decide_or]
  case owned =>
    intro n
    have h := refs_frame hrest n
    rw [refs_split, howned₂ n, refs_frame hfirst, h₁.owned n, refs_split (F := F), h, htake,
      List.count_append]
    omega
  case frame =>
    intro m hm hzero
    rw [refs_split, refs_frame hfirst] at hzero
    rw [hframe₂ m (by rwa [hsu]) (by omega), h₁.frame m hm (by omega)]
  case kept =>
    intro k hk hne
    rcases Nat.lt_or_ge k (B + 128 ^ t.1) with hlt | hge
    · rw [lookup_head hlt] at hne ⊢
      rw [hhead hlt]
      exact h₁.kept k hk hne
    · rw [lookup_tail hge] at hne ⊢
      rw [htail hge]
      exact hkept₂ k hge hne
  case mapped =>
    intro k q hk hk' hzero hq
    rw [width_cons] at hk'
    rw [hzip, List.mem_append]
    rcases Nat.lt_or_ge k (B + 128 ^ t.1) with hlt | hge
    · rw [hhead hlt, h₁.mapped k q hk (by simpa using hlt) (by rwa [lookup_head hlt] at hzero) hq]
      refine ⟨Or.inl, fun h => h.resolve_right fun h => ?_⟩
      have hrange := need_range_of_mem_zip (by decide) Block.ptrs_length h
      omega
    · rw [htail hge, hmapped₂ k q hge (by omega) (by rwa [lookup_tail hge] at hzero) hq]
      refine ⟨Or.inr, fun h => h.resolve_left fun h => ?_⟩
      have hrange := need_range_of_mem_zip (by decide) Block.ptrs_length h
      simp only [width_cons, width_nil] at hrange
      omega
  case before =>
    intro k hk hk' hne r hr
    rcases Nat.lt_or_ge k (B + 128 ^ t.1) with hlt | hge
    · rw [hhead hlt] at hne ⊢
      rw [hfirst _ (refs_lookup hne)]
      exact h₁.before k hk (by omega) hne r hr
    · rw [htail hge] at hne ⊢
      rw [hbefore₂ k hge hk' hne r hr, hlast _ (refs_lookup hne)]
  case after =>
    intro k hk hk'
    have hge : B + 128 ^ t.1 ≤ k := by omega
    rw [width_cons] at hk'
    rw [htail hge, lookup_tail hge]
    obtain ⟨heq, hsame⟩ := hafter₂ k hk (by omega)
    refine ⟨heq, fun hne => ?_⟩
    rw [hsame hne, hrest _ (refs_lookup hne)]
  case covered =>
    intro k hk hk' hs he
    rcases Nat.lt_or_ge k (B + 128 ^ t.1) with hlt | hge
    · rw [hhead hlt]
      exact h₁.covered k hk (by omega) hs he
    · rw [htail hge]
      exact hcovered₂ k hge hk' hs he

end Sequence

end Hobby386
