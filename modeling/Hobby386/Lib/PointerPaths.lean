import Hobby386.Lib.PointerForest

/-!
# Pointers on the path to a position

The path to a position of a forest passes one pointer of every height, from the root of the tree
that covers the position down to the data. Below a null pointer all pointers count as null. The
null pointers on the paths to a range of positions are listed from the start of the range on, so
the list for a part of the range from its start is a prefix of the list for the range.
-/

namespace PointerForest

variable {β : Type*} (kids : β → List ℕ) (fan : ℕ)

/-- The pointer of height `h` on the path to position `k` of the tree at `p` that starts at position `B`;
0 if the path has none. -/
def treeNode (d : ℕ → β) (h : ℕ) : (l p B k : ℕ) → ℕ
  | 0, p, _, _ => if h = 0 then p else 0
  | l + 1, p, B, k =>
    if h = l + 1 then p
    else if p = 0 then 0
    else walk fan (fun _ q C => treeNode d h l q C k) 0 (row l (kids (d p))) B k

/-- The pointer of height `h` on the path to position `k` of a forest, 0 if the path has none. -/
def node (d : ℕ → β) (h : ℕ) (F : Forest) (B k : ℕ) : ℕ :=
  walk fan (fun l p C => treeNode kids fan d h l p C k) 0 F B k

variable {kids fan} {d d' : ℕ → β} {F : Forest} {h l p s e B k : ℕ}

/-- The pointer on a path is looked for in the first tree or behind it. -/
theorem node_cons (t : ℕ × ℕ) : node kids fan d h (t :: F) B k =
    if k < B + fan ^ t.1 then treeNode kids fan d h t.1 t.2 B k
    else node kids fan d h F (B + fan ^ t.1) k := rfl

/-- The pointer on a path at an indirect block: the block itself, or one below it. -/
theorem treeNode_succ : treeNode kids fan d h (l + 1) p B k =
    if h = l + 1 then p
    else if p = 0 then 0
    else node kids fan d h (row l (kids (d p))) B k := by
  rw [treeNode, node]
  congr 2
  apply walk_congr
  intro t ht C
  rw [height_of_mem_row ht]

/-- A position in front of the end of the first tree has its path there. -/
theorem node_head {t : ℕ × ℕ} (hk : k < B + fan ^ t.1) :
    node kids fan d h (t :: F) B k = node kids fan d h [t] B k := by
  rw [node_cons, node_cons, if_pos hk, if_pos hk]

/-- A position behind the first tree has its path in the rest. -/
theorem node_tail {t : ℕ × ℕ} (hk : B + fan ^ t.1 ≤ k) :
    node kids fan d h (t :: F) B k = node kids fan d h F (B + fan ^ t.1) k := by
  rw [node_cons, if_neg (Nat.not_lt.mpr hk)]

/-- No path goes past the end of a forest. -/
theorem node_eq_zero (hk : B + width fan F ≤ k) : node kids fan d h F B k = 0 := by
  induction F generalizing B with
  | nil => rfl
  | cons t F ih =>
    rw [width_cons] at hk
    rw [node_tail (by omega), ih (by omega)]

/-- Below a null pointer there are null pointers only. -/
@[simp] theorem node_null : node kids fan d h [(l, 0)] B k = 0 := by
  rw [node_cons]
  split
  · cases l with
    | zero => simp [treeNode]
    | succ l => simp [treeNode_succ]
  · rfl

/-- The path through a data pointer. -/
theorem node_leaf : node kids fan d h [(0, p)] B k = if k < B + 1 ∧ h = 0 then p else 0 := by
  rw [node_cons, treeNode, ite_and]
  rfl

/-- The path to a position starts at the root of its tree. -/
theorem node_root (hk : k < B + fan ^ (l + 1)) : node kids fan d (l + 1) [(l + 1, p)] B k = p := by
  rw [node_cons, if_pos hk, treeNode_succ, if_pos rfl]

/-- The pointers below the root of a tree are those of the row below it. -/
theorem node_node (hfan : (kids (d p)).length = fan) (hp : p ≠ 0) (hne : h ≠ l + 1) :
    node kids fan d h [(l + 1, p)] B k = node kids fan d h (row l (kids (d p))) B k := by
  rw [node_cons, treeNode_succ, if_neg hne, if_neg hp]
  split
  · rfl
  · rename_i hk
    refine (node_eq_zero ?_).symm
    rw [width_row, hfan, ← pow_succ']
    exact Nat.not_lt.mp hk

/-- There is nothing on the paths through null pointers. -/
theorem node_row_replicate (m : ℕ) : node kids fan d h (row l (List.replicate m 0)) B k = 0 := by
  induction m generalizing B with
  | zero => rfl
  | succ m ih =>
    rw [List.replicate_succ, row_cons]
    rcases Nat.lt_or_ge k (B + fan ^ l) with hk | hk
    · rw [node_head hk, node_null]
    · rw [node_tail hk, ih]

/-- At height 0 stands the pointer to the data. -/
theorem node_zero (hkids : ∀ b, (kids b).length = fan) :
    node kids fan d 0 F B k = lookup kids fan d F B k := by
  induction F using forest_induction generalizing B with
  | nil => rfl
  | leaf p => simp [node_leaf, lookup_leaf]
  | node l p ih =>
    rcases eq_or_ne p 0 with rfl | hp
    · rw [node_null, lookup_null]
    · rw [node_node (hkids _) hp (Nat.succ_ne_zero l).symm, lookup_node_full (hkids _) hp, ih]
  | cons t F iht ihF =>
    rcases Nat.lt_or_ge k (B + fan ^ t.1) with hk | hk
    · rw [node_head hk, lookup_head hk, iht]
    · rw [node_tail hk, lookup_tail hk, ihF]

/-- The pointers on a path depend only on the blocks the forest refers to. -/
theorem node_frame (hkids : ∀ b, (kids b).length = fan) (hd : ∀ m, 0 < refs kids d F m → d' m = d m)
    (B k : ℕ) : node kids fan d' h F B k = node kids fan d h F B k := by
  induction F using forest_induction generalizing B with
  | nil => rfl
  | leaf p => rw [node_leaf, node_leaf]
  | node l p ih =>
    rcases eq_or_ne p 0 with rfl | hp
    · rw [node_null, node_null]
    · have hroot : d' p = d p := hd p (refs_root hp)
      by_cases hh : h = l + 1
      · rw [node_cons, node_cons, treeNode_succ, treeNode_succ, if_pos hh, if_pos hh]
        rfl
      · rw [node_node (hkids _) hp hh, node_node (hkids _) hp hh, hroot]
        exact ih _ (fun m hm => hd m (Nat.lt_of_lt_of_le hm (refs_kids_le hp))) B
  | cons t F iht ihF =>
    have hhead : ∀ m, 0 < refs kids d [t] m → d' m = d m := fun m hm =>
      hd m (by rw [refs_split]; omega)
    have htail : ∀ m, 0 < refs kids d F m → d' m = d m := fun m hm => hd m (by rw [refs_split]; omega)
    rcases Nat.lt_or_ge k (B + fan ^ t.1) with hk | hk
    · rw [node_head (F := F) hk, node_head (F := F) hk, iht hhead]
    · rw [node_tail hk, node_tail hk, ihF htail]

/-! ## Null pointers on the paths to a range -/

/-- A row needs pointers up to its own height. -/
theorem need_height (ps : List ℕ) {t : ℕ × ℕ} (ht : t ∈ need kids fan d s e (row l ps) B) : t.1 ≤ l := by
  have hheight {F : Forest} {l B : ℕ} (ht : t ∈ need kids fan d s e F B) (hF : ∀ u ∈ F, u.1 ≤ l) :
      t.1 ≤ l := by
    induction ht using mem_need_induction generalizing l with
    | root => exact hF (t.1, 0) (List.mem_singleton_self _)
    | below l' p B _ _ ih =>
      have hlow : l' + 1 ≤ l := hF _ (List.mem_singleton_self _)
      exact (ih fun u hu => (height_of_mem_row hu).le).trans (by omega)
    | head u F B _ _ ih => exact ih fun v hv => hF v (List.mem_singleton.mp hv ▸ List.mem_cons_self)
    | tail u F B _ _ ih => exact ih fun v hv => hF v (List.mem_cons_of_mem u hv)
  exact hheight ht fun u hu => (height_of_mem_row hu).le

/-- An unmapped position of a range needs a pointer to data. -/
theorem mem_need_of_lookup (hkids : ∀ b, (kids b).length = fan) (hs : s ≤ k) (he : k ≤ e) (hB : B ≤ k)
    (hk : k < B + width fan F) (hzero : lookup kids fan d F B k = 0) :
    (0, k) ∈ need kids fan d s e F B := by
  induction F using forest_induction generalizing B with
  | nil =>
    rw [width_nil] at hk
    omega
  | leaf p =>
    rw [width_cons, width_nil, pow_zero] at hk
    obtain rfl : k = B := by omega
    rw [lookup_leaf, if_pos (Nat.lt_succ_self k)] at hzero
    rw [need_leaf ⟨he, by omega⟩, if_pos hzero]
    exact List.mem_singleton_self _
  | node l p ih =>
    rw [width_cons, width_nil, Nat.add_zero] at hk
    have hrow (ps : List ℕ) (hlen : ps.length = fan) (hps : lookup kids fan d (row l ps) B k = 0) :
        (0, k) ∈ need kids fan d s e (row l ps) B :=
      ih ps hB (by rwa [width_row, hlen, ← pow_succ']) hps
    rw [need_node ⟨hB.trans he, hs.trans_lt hk⟩, List.mem_append]
    right
    by_cases hp : p = 0
    · rw [if_pos hp]
      exact hrow _ List.length_replicate (lookup_row_replicate _)
    · rw [if_neg hp]
      rw [lookup_node_full (hkids _) hp] at hzero
      exact hrow _ (hkids _) hzero
  | cons t F iht ihF =>
    rw [width_cons] at hk
    rw [need_split, List.mem_append]
    rcases Nat.lt_or_ge k (B + fan ^ t.1) with hlt | hge
    · rw [lookup_head hlt] at hzero
      exact .inl (iht hB (by simpa using hlt) hzero)
    · rw [lookup_tail hge] at hzero
      exact .inr (ihF hge (by omega) hzero)

/-- The null pointers on the paths to the first positions of a range come first. -/
theorem need_prefix (hfan : 0 < fan) (hkids : ∀ b, (kids b).length = fan) {e' : ℕ} (he : e ≤ e') :
    ∃ later, need kids fan d s e' F B = need kids fan d s e F B ++ later ∧ ∀ t ∈ later, e < t.2 := by
  have behind {F : Forest} {B : ℕ} (hB : e < B) : ∃ later, need kids fan d s e' F B =
      need kids fan d s e F B ++ later ∧ ∀ t ∈ later, e < t.2 := by
    refine ⟨_, by rw [need_of_lt hB, List.nil_append], fun t ht => ?_⟩
    exact hB.trans_le (need_range hfan hkids ht).1
  induction F using forest_induction generalizing B with
  | nil => exact ⟨[], rfl, by simp⟩
  | leaf p =>
    rcases Nat.lt_or_ge e B with hB | hB
    · exact behind hB
    · by_cases hs : s < B + 1
      · exact ⟨[], by rw [need_leaf ⟨hB.trans he, hs⟩, need_leaf ⟨hB, hs⟩, List.append_nil], by simp⟩
      · have hs' : ¬s < B + fan ^ 0 := hs
        refine ⟨[], ?_, by simp⟩
        rw [need_skip (fun hv => hs' hv.2), need_skip (fun hv => hs' hv.2), List.append_nil]
  | node l p ih =>
    rcases Nat.lt_or_ge e B with hB | hB
    · exact behind hB
    · by_cases hs : s < B + fan ^ (l + 1)
      · obtain ⟨later, heq, hlater⟩ := ih (if p = 0 then List.replicate fan 0 else kids (d p)) (B := B)
        refine ⟨later, ?_, hlater⟩
        rw [need_node ⟨hB.trans he, hs⟩, need_node ⟨hB, hs⟩, heq, List.append_assoc]
      · refine ⟨[], ?_, by simp⟩
        rw [need_skip (fun hv => hs hv.2), need_skip (fun hv => hs hv.2), List.append_nil]
  | cons t F iht ihF =>
    obtain ⟨later, heq, hlater⟩ := iht (B := B)
    obtain ⟨later', heq', hlater'⟩ := ihF (B := B + fan ^ t.1)
    rcases List.eq_nil_or_concat later with rfl | ⟨init, u, rfl⟩
    · refine ⟨later', ?_, hlater'⟩
      rw [need_split, heq, List.append_nil, heq', need_split (F := F), List.append_assoc]
    · -- the range goes on inside the first tree, so nothing behind that tree belongs to its first part
      have hu : u ∈ need kids fan d s e' [t] B := by simp [heq]
      have hrange := (need_range hfan hkids hu).2
      have hlow := hlater u (by simp)
      rw [width_cons, width_nil, Nat.add_zero] at hrange
      have hnone : need kids fan d s e F (B + fan ^ t.1) = [] := need_of_lt (hlow.trans hrange)
      rw [hnone, List.nil_append] at heq'
      refine ⟨init.concat u ++ later', ?_, fun v hv => ?_⟩
      · rw [need_split, heq, heq', need_split (F := F), hnone, List.append_nil, List.append_assoc]
      · exact (List.mem_append.mp hv).elim (hlater v) (hlater' v)

end PointerForest
