import Mathlib.Algebra.BigOperators.Group.List.Basic
import Mathlib.Algebra.Order.BigOperators.Group.List
import Mathlib.Data.List.GetD
import Mathlib.Tactic.Ring

/-!
# Forests of block pointers

A store maps block numbers to blocks, and a block of a tree of positive height holds a row of
pointers, 0 being the null pointer. A pointer of height `l` covers `fan ^ l` consecutive
positions. A forest is a row of pointers with their heights, and covers the concatenation of
the ranges of its trees.

For a forest this file defines which block each position is mapped to, how often each block is
pointed to, which subtree a hole is missing, and which pointers are null on the paths to a range
of positions. All of them depend only on the blocks the forest points to.
-/

namespace PointerForest

/-- Pointers with the heights of the trees they point to. -/
abbrev Forest := List (ℕ × ℕ)

/-- A row of pointers of one height. -/
def row (l : ℕ) (ps : List ℕ) : Forest := ps.map (Prod.mk l)

/-- An empty row. -/
@[simp] theorem row_nil (l : ℕ) : row l [] = [] := rfl

/-- A row and its first pointer. -/
@[simp] theorem row_cons (l p : ℕ) (ps : List ℕ) : row l (p :: ps) = (l, p) :: row l ps := rfl

variable {β : Type*} (kids : β → List ℕ) (fan : ℕ)

/-- The number of positions a forest covers. -/
def width (F : Forest) : ℕ := (F.map fun t => fan ^ t.1).sum

/-- An empty forest has no positions. -/
@[simp] theorem width_nil : width fan [] = 0 := rfl

/-- The width of a forest is that of its first tree and of the rest. -/
@[simp] theorem width_cons (t : ℕ × ℕ) (F : Forest) :
    width fan (t :: F) = fan ^ t.1 + width fan F := by simp [width]

/-- All trees of a row have the same width. -/
theorem width_row (l : ℕ) (ps : List ℕ) : width fan (row l ps) = ps.length * fan ^ l := by
  induction ps with
  | nil => simp
  | cons p ps ih => rw [row_cons, width_cons, ih, List.length_cons]; ring

/-- The width depends on the heights only. -/
theorem width_congr {F G : Forest} (h : F.map Prod.fst = G.map Prod.fst) :
    width fan F = width fan G := by
  have hmap (H : Forest) : width fan H = ((H.map Prod.fst).map (fan ^ ·)).sum := by
    rw [width, List.map_map]
    rfl
  rw [hmap, hmap, h]

/-- Evaluate `f` at the tree of the forest, starting at position `B`, that covers position `k`. -/
def walk {α : Type*} (f : ℕ → ℕ → ℕ → α) (outside : α) : Forest → (B k : ℕ) → α
  | [], _, _ => outside
  | (l, p) :: F, B, k => if k < B + fan ^ l then f l p B else walk f outside F (B + fan ^ l) k

/-- Concatenate the lists that `f` yields at the trees of the forest. -/
def gather {α : Type*} (f : ℕ → ℕ → ℕ → List α) : Forest → (B : ℕ) → List α
  | [], _ => []
  | (l, p) :: F, B => f l p B ++ gather f F (B + fan ^ l)

variable {fan} in
/-- A walk only depends on the function at the trees of the forest. -/
theorem walk_congr {α : Type*} {f g : ℕ → ℕ → ℕ → α} {outside : α} {F : Forest}
    (h : ∀ t ∈ F, ∀ B, f t.1 t.2 B = g t.1 t.2 B) (B k : ℕ) :
    walk fan f outside F B k = walk fan g outside F B k := by
  induction F generalizing B with
  | nil => rfl
  | cons t F ih =>
    rw [walk, walk, h t List.mem_cons_self, ih fun u hu => h u (List.mem_cons_of_mem t hu)]

variable {fan} in
/-- What is gathered only depends on the function at the trees of the forest. -/
theorem gather_congr {α : Type*} {f g : ℕ → ℕ → ℕ → List α} {F : Forest}
    (h : ∀ t ∈ F, ∀ B, f t.1 t.2 B = g t.1 t.2 B) (B : ℕ) :
    gather fan f F B = gather fan g F B := by
  induction F generalizing B with
  | nil => rfl
  | cons t F ih =>
    rw [gather, gather, h t List.mem_cons_self, ih fun u hu => h u (List.mem_cons_of_mem t hu)]

/-- Every tree of a row has the height of the row. -/
theorem height_of_mem_row {l : ℕ} {ps : List ℕ} {t : ℕ × ℕ} (h : t ∈ row l ps) : t.1 = l := by
  obtain ⟨p, -, rfl⟩ := List.mem_map.mp h
  rfl

/-! ## Positions and blocks -/

/-- The block at position `k` of the tree at `p` that starts at position `B`, 0 for a hole. -/
def treeLookup (d : ℕ → β) : (l p B k : ℕ) → ℕ
  | 0, p, _, _ => p
  | l + 1, p, B, k =>
    if p = 0 then 0
    else walk fan (fun _ q C => treeLookup d l q C k) 0 (row l (kids (d p))) B k

/-- The block at position `k` of a forest that starts at position `B`, 0 for a hole. -/
def lookup (d : ℕ → β) (F : Forest) (B k : ℕ) : ℕ :=
  walk fan (fun l p C => treeLookup kids fan d l p C k) 0 F B k

/-- The number of pointers to block `n` in the tree at `p`, the root pointer included. -/
def treeRefs (d : ℕ → β) : (l p n : ℕ) → ℕ
  | 0, p, n => if p = 0 then 0 else if p = n then 1 else 0
  | l + 1, p, n =>
    if p = 0 then 0
    else (if p = n then 1 else 0) + ((kids (d p)).map fun q => treeRefs d l q n).sum

/-- The number of pointers to block `n` in a forest. -/
def refs (d : ℕ → β) (F : Forest) (n : ℕ) : ℕ := (F.map fun t => treeRefs kids d t.1 t.2 n).sum

/-- The positions `[first, end)` of the missing subtree that covers position `k`, if any. -/
def treeHole (d : ℕ → β) : (l p B k : ℕ) → Option (ℕ × ℕ)
  | 0, p, B, _ => if p = 0 then some (B, B + 1) else none
  | l + 1, p, B, k =>
    if p = 0 then some (B, B + fan ^ (l + 1))
    else walk fan (fun _ q C => treeHole d l q C k) none (row l (kids (d p))) B k

/-- The positions `[first, end)` of the missing subtree of a forest that covers position `k`. -/
def hole (d : ℕ → β) (F : Forest) (B k : ℕ) : Option (ℕ × ℕ) :=
  walk fan (fun l p C => treeHole kids fan d l p C k) none F B k

/-- The null pointers on the paths to the positions `s..e`, in preorder, each with its height and
first position. Below a null pointer the children are null as well. -/
def treeNeed (d : ℕ → β) (s e : ℕ) : (l p B : ℕ) → List (ℕ × ℕ)
  | 0, p, B => if B ≤ e ∧ s < B + 1 then if p = 0 then [(0, B)] else [] else []
  | l + 1, p, B =>
    if B ≤ e ∧ s < B + fan ^ (l + 1) then
      (if p = 0 then [(l + 1, B)] else []) ++
        gather fan (fun _ q C => treeNeed d s e l q C)
          (row l (if p = 0 then List.replicate fan 0 else kids (d p))) B
    else []

/-- The null pointers of a forest on the paths to the positions `s..e`. -/
def need (d : ℕ → β) (s e : ℕ) (F : Forest) (B : ℕ) : List (ℕ × ℕ) :=
  gather fan (fun l p C => treeNeed kids fan d s e l p C) F B

variable {kids fan} {d d' : ℕ → β} {F : Forest} {l p n s e B k : ℕ}

/-- An empty forest points nowhere. -/
@[simp] theorem refs_nil : refs kids d [] n = 0 := rfl

/-- References are counted tree by tree. -/
@[simp] theorem refs_cons (t : ℕ × ℕ) :
    refs kids d (t :: F) n = treeRefs kids d t.1 t.2 n + refs kids d F n := by simp [refs]

/-- References of a row are counted pointer by pointer. -/
theorem refs_row (ps : List ℕ) :
    refs kids d (row l ps) n = (ps.map fun q => treeRefs kids d l q n).sum := by
  rw [refs, row, List.map_map]
  rfl

/-- The references of an indirect block: the pointer to it and the row of pointers in it. -/
theorem treeRefs_succ : treeRefs kids d (l + 1) p n =
    if p = 0 then 0 else (if p = n then 1 else 0) + refs kids d (row l (kids (d p))) n := by
  rw [treeRefs, refs_row]

/-- A lookup goes into the first tree or past it. -/
theorem lookup_cons (t : ℕ × ℕ) : lookup kids fan d (t :: F) B k =
    if k < B + fan ^ t.1 then treeLookup kids fan d t.1 t.2 B k
    else lookup kids fan d F (B + fan ^ t.1) k := rfl

/-- A lookup below an indirect block goes on in its row of pointers. -/
theorem treeLookup_succ : treeLookup kids fan d (l + 1) p B k =
    if p = 0 then 0 else lookup kids fan d (row l (kids (d p))) B k := by
  rw [treeLookup, lookup]
  congr 1
  exact walk_congr (fun t ht C => by rw [height_of_mem_row ht]) B k

/-- The hole around a position is looked for in the first tree or behind it. -/
theorem hole_cons (t : ℕ × ℕ) : hole kids fan d (t :: F) B k =
    if k < B + fan ^ t.1 then treeHole kids fan d t.1 t.2 B k
    else hole kids fan d F (B + fan ^ t.1) k := rfl

/-- Below an indirect block the hole is looked for in its row of pointers. -/
theorem treeHole_succ : treeHole kids fan d (l + 1) p B k =
    if p = 0 then some (B, B + fan ^ (l + 1))
    else hole kids fan d (row l (kids (d p))) B k := by
  rw [treeHole, hole]
  congr 1
  exact walk_congr (fun t ht C => by rw [height_of_mem_row ht]) B k

/-- An empty forest needs no blocks. -/
@[simp] theorem need_nil : need kids fan d s e [] B = [] := rfl

/-- What a forest needs is gathered tree by tree. -/
theorem need_cons (t : ℕ × ℕ) : need kids fan d s e (t :: F) B =
    treeNeed kids fan d s e t.1 t.2 B ++ need kids fan d s e F (B + fan ^ t.1) := rfl

/-- The first tree of a forest, counted as a forest of its own. -/
theorem refs_split (t : ℕ × ℕ) :
    refs kids d (t :: F) n = refs kids d [t] n + refs kids d F n := by simp

/-- A position in front of the end of the first tree is looked up there. -/
theorem lookup_head {t : ℕ × ℕ} (h : k < B + fan ^ t.1) :
    lookup kids fan d (t :: F) B k = lookup kids fan d [t] B k := by
  rw [lookup_cons, lookup_cons, if_pos h, if_pos h]

/-- A position behind the first tree is looked up in the rest. -/
theorem lookup_tail {t : ℕ × ℕ} (h : B + fan ^ t.1 ≤ k) :
    lookup kids fan d (t :: F) B k = lookup kids fan d F (B + fan ^ t.1) k := by
  rw [lookup_cons, if_neg (Nat.not_lt.mpr h)]

/-- A position in front of the end of the first tree has its hole there. -/
theorem hole_head {t : ℕ × ℕ} (h : k < B + fan ^ t.1) :
    hole kids fan d (t :: F) B k = hole kids fan d [t] B k := by
  rw [hole_cons, hole_cons, if_pos h, if_pos h]

/-- A position behind the first tree has its hole in the rest. -/
theorem hole_tail {t : ℕ × ℕ} (h : B + fan ^ t.1 ≤ k) :
    hole kids fan d (t :: F) B k = hole kids fan d F (B + fan ^ t.1) k := by
  rw [hole_cons, if_neg (Nat.not_lt.mpr h)]

/-- What the first tree needs, as a forest of its own, and what the rest needs. -/
theorem need_split (t : ℕ × ℕ) : need kids fan d s e (t :: F) B =
    need kids fan d s e [t] B ++ need kids fan d s e F (B + fan ^ t.1) := by
  rw [need_cons, need_cons, need_nil, List.append_nil]

/-- An indirect block that is visited is needed itself when it is missing, and so is what its row
needs. -/
theorem treeNeed_succ : treeNeed kids fan d s e (l + 1) p B =
    if B ≤ e ∧ s < B + fan ^ (l + 1) then
      (if p = 0 then [(l + 1, B)] else []) ++
        need kids fan d s e (row l (if p = 0 then List.replicate fan 0 else kids (d p))) B
    else [] := by
  rw [treeNeed, need]
  congr 2
  exact gather_congr (fun t ht C => by rw [height_of_mem_row ht]) B

/-! ## Single trees -/

/-- Every pointer to data and every tree above a row of pointers, then forests tree by tree. -/
@[elab_as_elim]
theorem forest_induction {P : Forest → Prop} (nil : P []) (leaf : ∀ p, P [(0, p)])
    (node : ∀ l p, (∀ ps, P (row l ps)) → P [(l + 1, p)])
    (cons : ∀ t F, P [t] → P F → P (t :: F)) (F : Forest) : P F := by
  have forest (F : Forest) (h : ∀ t ∈ F, P [t]) : P F := by
    induction F with
    | nil => exact nil
    | cons t F ih =>
      exact cons t F (h t List.mem_cons_self) (ih fun u hu => h u (List.mem_cons_of_mem t hu))
  have tree (l : ℕ) : ∀ p, P [(l, p)] := by
    induction l with
    | zero => exact leaf
    | succ l ih =>
      refine fun p => node l p fun ps => forest _ fun t ht => ?_
      obtain ⟨q, -, rfl⟩ := List.mem_map.mp ht
      exact ih q
  exact forest F fun t _ => tree t.1 t.2

/-- A null pointer points to nothing. -/
@[simp] theorem treeRefs_null : treeRefs kids d l 0 n = 0 := by cases l <;> rfl

/-- A null pointer refers to nothing. -/
theorem refs_null : refs kids d [(l, 0)] n = 0 := by simp

/-- A data pointer refers to its block. -/
theorem refs_leaf : refs kids d [(0, p)] n = if p = 0 then 0 else if p = n then 1 else 0 := by
  rw [refs_cons, refs_nil, Nat.add_zero, treeRefs]

/-- A pointer to an indirect block refers to that block and to what the block refers to. -/
theorem refs_node (hp : p ≠ 0) : refs kids d [(l + 1, p)] n =
    (if p = n then 1 else 0) + refs kids d (row l (kids (d p))) n := by
  rw [refs_cons, refs_nil, Nat.add_zero, treeRefs_succ, if_neg hp]

/-- Below a null pointer every position is unmapped. -/
@[simp] theorem lookup_null : lookup kids fan d [(l, 0)] B k = 0 := by
  cases l <;> simp [lookup, walk, treeLookup]

/-- A data pointer maps the one position it covers. -/
theorem lookup_leaf : lookup kids fan d [(0, p)] B k = if k < B + 1 then p else 0 := by
  rw [lookup_cons, pow_zero]
  rfl

/-- A null pointer is missing its whole subtree. -/
theorem hole_null (h : k < B + fan ^ l) :
    hole kids fan d [(l, 0)] B k = some (B, B + fan ^ l) := by
  rw [hole_cons, if_pos h]
  cases l with
  | zero => rw [treeHole, if_pos rfl, pow_zero]
  | succ l => rw [treeHole_succ, if_pos rfl]

/-- A data block is no hole. -/
theorem hole_leaf (hp : p ≠ 0) : hole kids fan d [(0, p)] B k = none := by
  rw [hole_cons, treeHole, if_neg hp]
  split <;> rfl

/-- Outside the range nothing has to be allocated. -/
theorem need_skip (h : ¬(B ≤ e ∧ s < B + fan ^ l)) : need kids fan d s e [(l, p)] B = [] := by
  rw [need_cons, need_nil, List.append_nil]
  cases l with
  | zero => rw [treeNeed, if_neg (by simpa using h)]
  | succ l => rw [treeNeed_succ, if_neg h]

/-- A visited data pointer needs a block when it is null. -/
theorem need_leaf (h : B ≤ e ∧ s < B + 1) :
    need kids fan d s e [(0, p)] B = if p = 0 then [(0, B)] else [] := by
  rw [need_cons, need_nil, List.append_nil, treeNeed, if_pos h]

/-- A visited pointer to an indirect block, as a forest of its own. -/
theorem need_node (h : B ≤ e ∧ s < B + fan ^ (l + 1)) : need kids fan d s e [(l + 1, p)] B =
    (if p = 0 then [(l + 1, B)] else []) ++
      need kids fan d s e (row l (if p = 0 then List.replicate fan 0 else kids (d p))) B := by
  rw [need_cons, need_nil, List.append_nil, treeNeed_succ, if_pos h]

/-- A null pointer on the way to the range is the first to be allocated. -/
theorem need_null (h : B ≤ e ∧ s < B + fan ^ l) :
    ∃ tail, need kids fan d s e [(l, 0)] B = (l, B) :: tail := by
  cases l with
  | zero => exact ⟨[], by rw [need_leaf (by simpa using h), if_pos rfl]⟩
  | succ l => exact ⟨_, by rw [need_node h, if_pos rfl, List.singleton_append]⟩

/-- The root block of a tree is referenced by its root pointer. -/
theorem refs_root (hp : p ≠ 0) : 0 < refs kids d [(l, p)] p := by
  cases l with
  | zero =>
    rw [refs_leaf, if_neg hp, if_pos rfl]
    exact Nat.one_pos
  | succ l =>
    rw [refs_node hp, if_pos rfl]
    exact Nat.add_pos_left Nat.one_pos _

/-- References inside a tree are references of the tree. -/
theorem refs_kids_le (hp : p ≠ 0) :
    refs kids d (row l (kids (d p))) n ≤ refs kids d [(l + 1, p)] n := by
  rw [refs_node hp]
  exact Nat.le_add_left _ _

/-- Null pointers refer to no block. -/
theorem refs_row_replicate (m : ℕ) : refs kids d (row l (List.replicate m 0)) n = 0 := by
  induction m with
  | zero => rfl
  | succ m ih => rw [List.replicate_succ, row_cons, refs_split, refs_null, ih]

/-- A row of null pointers maps nothing. -/
theorem lookup_row_replicate (m : ℕ) : lookup kids fan d (row l (List.replicate m 0)) B k = 0 := by
  induction m generalizing B with
  | zero => rfl
  | succ m ih =>
    rw [List.replicate_succ, row_cons]
    rcases Nat.lt_or_ge k (B + fan ^ l) with hk | hk
    · rw [lookup_head hk, lookup_null]
    · rw [lookup_tail hk, ih]

/-- Nothing is mapped past the end of a forest. -/
theorem lookup_eq_zero (h : B + width fan F ≤ k) : lookup kids fan d F B k = 0 := by
  induction F generalizing B with
  | nil => rfl
  | cons t F ih =>
    rw [width_cons] at h
    rw [lookup_tail (by omega), ih (by omega)]

/-- A position below an indirect block is looked up in its row of pointers. -/
theorem lookup_node (hp : p ≠ 0) : lookup kids fan d [(l + 1, p)] B k =
    if k < B + fan ^ (l + 1) then lookup kids fan d (row l (kids (d p))) B k else 0 := by
  rw [lookup_cons, treeLookup_succ, if_neg hp]
  rfl

/-- A tree with a full row below its root maps what the row maps. -/
theorem lookup_node_full (hfan : (kids (d p)).length = fan) (hp : p ≠ 0) :
    lookup kids fan d [(l + 1, p)] B k = lookup kids fan d (row l (kids (d p))) B k := by
  rw [lookup_node hp]
  split
  · rfl
  · rename_i hk
    refine (lookup_eq_zero ?_).symm
    rw [width_row, hfan, ← pow_succ']
    exact Nat.not_lt.mp hk

/-- A position below an indirect block has its hole in the row of pointers. -/
theorem hole_node (hp : p ≠ 0) (h : k < B + fan ^ (l + 1)) :
    hole kids fan d [(l + 1, p)] B k = hole kids fan d (row l (kids (d p))) B k := by
  rw [hole_cons, if_pos h, treeHole_succ, if_neg hp]

/-! ## Dependence on the store -/

/-- The references of a forest depend only on the blocks it refers to. -/
theorem refs_frame (h : ∀ m, 0 < refs kids d F m → d' m = d m) (n : ℕ) :
    refs kids d' F n = refs kids d F n := by
  induction F using forest_induction with
  | nil => rfl
  | leaf p => rw [refs_leaf, refs_leaf]
  | node l p ih =>
    rcases eq_or_ne p 0 with rfl | hp
    · rw [refs_null, refs_null]
    · rw [refs_node hp, refs_node hp, h p (refs_root hp),
        ih _ fun m hm => h m (hm.trans_le (refs_kids_le hp))]
  | cons t F iht ihF =>
    rw [refs_split, refs_split (d := d),
      iht fun m hm => h m (by rw [refs_split]; exact Nat.add_pos_left hm _),
      ihF fun m hm => h m (by rw [refs_split]; exact Nat.add_pos_right _ hm)]

/-- The mapping of a forest depends only on the blocks it refers to. -/
theorem lookup_frame (h : ∀ m, 0 < refs kids d F m → d' m = d m) (B k : ℕ) :
    lookup kids fan d' F B k = lookup kids fan d F B k := by
  induction F using forest_induction generalizing B with
  | nil => rfl
  | leaf p => rw [lookup_leaf, lookup_leaf]
  | node l p ih =>
    rcases eq_or_ne p 0 with rfl | hp
    · rw [lookup_null, lookup_null]
    · rw [lookup_node hp, lookup_node hp, h p (refs_root hp),
        ih _ fun m hm => h m (hm.trans_le (refs_kids_le hp))]
  | cons t F iht ihF =>
    have hhead := iht (fun m hm => h m (by rw [refs_split]; exact Nat.add_pos_left hm _)) B
    have htail := ihF (fun m hm => h m (by rw [refs_split]; exact Nat.add_pos_right _ hm))
      (B + fan ^ t.1)
    rcases Nat.lt_or_ge k (B + fan ^ t.1) with hk | hk
    · rw [lookup_head (F := F) hk, lookup_head (F := F) hk, hhead]
    · rw [lookup_tail hk, lookup_tail hk, htail]

/-- The null pointers of a forest depend only on the blocks it refers to. -/
theorem need_frame (h : ∀ m, 0 < refs kids d F m → d' m = d m) (B : ℕ) :
    need kids fan d' s e F B = need kids fan d s e F B := by
  induction F using forest_induction generalizing B with
  | nil => rfl
  | leaf p =>
    by_cases hvisit : B ≤ e ∧ s < B + 1
    · rw [need_leaf hvisit, need_leaf hvisit]
    · rw [need_skip (by simpa using hvisit), need_skip (by simpa using hvisit)]
  | node l p ih =>
    by_cases hvisit : B ≤ e ∧ s < B + fan ^ (l + 1)
    · rw [need_node hvisit, need_node hvisit]
      congr 1
      rcases eq_or_ne p 0 with rfl | hp
      · rw [if_pos rfl, if_pos rfl]
        exact ih _ (fun m hm => by simp [refs_row_replicate] at hm) B
      · rw [if_neg hp, if_neg hp, h p (refs_root hp)]
        exact ih _ (fun m hm => h m (hm.trans_le (refs_kids_le hp))) B
    · rw [need_skip hvisit, need_skip hvisit]
  | cons t F iht ihF =>
    rw [need_split, need_split (d := d),
      iht fun m hm => h m (by rw [refs_split]; exact Nat.add_pos_left hm _),
      ihF fun m hm => h m (by rw [refs_split]; exact Nat.add_pos_right _ hm)]

/-- Every mapped block is referred to. -/
theorem refs_lookup (h : lookup kids fan d F B k ≠ 0) :
    0 < refs kids d F (lookup kids fan d F B k) := by
  induction F using forest_induction generalizing B with
  | nil => exact absurd rfl h
  | leaf p =>
    rw [lookup_leaf] at h ⊢
    split at h
    · rename_i hk
      rw [if_pos hk]
      exact refs_root h
    · exact absurd rfl h
  | node l p ih =>
    rcases eq_or_ne p 0 with rfl | hp
    · exact absurd lookup_null h
    · rw [lookup_node hp] at h ⊢
      split at h
      · rename_i hk
        rw [if_pos hk]
        exact (ih _ h).trans_le (refs_kids_le hp)
      · exact absurd rfl h
  | cons t F iht ihF =>
    rw [refs_split]
    rcases Nat.lt_or_ge k (B + fan ^ t.1) with hk | hk
    · rw [lookup_head hk] at h ⊢
      exact Nat.add_pos_left (iht h) _
    · rw [lookup_tail hk] at h ⊢
      exact Nat.add_pos_right _ (ihF h)

/-! ## Holes and the pointers to allocate -/

/-- Where a needed pointer stands: it is a null root on the way to the range, or stands below a root
or in one of the trees. -/
@[elab_as_elim]
theorem mem_need_induction {t : ℕ × ℕ} {motive : ∀ F B, t ∈ need kids fan d s e F B → Prop}
    (root : ∀ h, t.2 ≤ e ∧ s < t.2 + fan ^ t.1 → motive [(t.1, 0)] t.2 h)
    (below : ∀ l p B h h', motive (row l (if p = 0 then List.replicate fan 0 else kids (d p))) B h' →
      motive [(l + 1, p)] B h)
    (head : ∀ u F B h h', motive [u] B h' → motive (u :: F) B h)
    (tail : ∀ u F B h h', motive F (B + fan ^ u.1) h' → motive (u :: F) B h)
    {F : Forest} {B : ℕ} (ht : t ∈ need kids fan d s e F B) : motive F B ht := by
  induction F using forest_induction generalizing B with
  | nil => simp at ht
  | leaf p =>
    by_cases hvisit : B ≤ e ∧ s < B + 1
    · have hmem := ht
      rw [need_leaf hvisit] at hmem
      split at hmem
      · rename_i hp
        subst hp
        obtain rfl := List.mem_singleton.mp hmem
        exact root ht hvisit
      · simp at hmem
    · simp [need_skip (show ¬(B ≤ e ∧ s < B + fan ^ 0) by simpa using hvisit)] at ht
  | node l p ih =>
    by_cases hvisit : B ≤ e ∧ s < B + fan ^ (l + 1)
    · have hmem := ht
      rw [need_node hvisit, List.mem_append] at hmem
      rcases hmem with hroot | hbelow
      · split at hroot
        · rename_i hp
          subst hp
          obtain rfl := List.mem_singleton.mp hroot
          exact root ht hvisit
        · simp at hroot
      · exact below l p B ht hbelow (ih _ hbelow)
    · simp [need_skip hvisit] at ht
  | cons u F ihu ihF =>
    have hmem := ht
    rw [need_split, List.mem_append] at hmem
    rcases hmem with hhead | htail
    · exact head u F B ht hhead (ihu hhead)
    · exact tail u F B ht htail (ihF htail)

/-- The trees of the null pointers on the way to a range lie inside the forest. -/
theorem need_inside (hkids : ∀ b, (kids b).length = fan) {t : ℕ × ℕ}
    (ht : t ∈ need kids fan d s e F B) : B ≤ t.2 ∧ t.2 + fan ^ t.1 ≤ B + width fan F := by
  induction ht using mem_need_induction with
  | root => simp
  | below l p B _ _ ih =>
    have hlen : (if p = 0 then List.replicate fan 0 else kids (d p)).length = fan := by
      split
      · exact List.length_replicate
      · exact hkids _
    rw [width_row, hlen, ← pow_succ'] at ih
    rwa [width_cons, width_nil, Nat.add_zero]
  | head u F B _ _ ih =>
    rw [width_cons, width_nil] at ih
    rw [width_cons]
    omega
  | tail u F B _ _ ih =>
    rw [width_cons]
    omega

/-- They start inside the forest. -/
theorem need_range (hfan : 0 < fan) (hkids : ∀ b, (kids b).length = fan) {t : ℕ × ℕ}
    (ht : t ∈ need kids fan d s e F B) : B ≤ t.2 ∧ t.2 < B + width fan F := by
  have hpos : 0 < fan ^ t.1 := Nat.pow_pos hfan
  have hinside := need_inside hkids ht
  omega

/-- The trees that pointers are handed to lie inside the forest. -/
theorem need_range_of_mem_zip (hfan : 0 < fan) (hkids : ∀ b, (kids b).length = fan) {β : Type}
    {h A : ℕ} {q : β} {qs : List β} (hmem : ((h, A), q) ∈ (need kids fan d s e F B).zip qs) :
    B ≤ A ∧ A < B + width fan F :=
  need_range hfan hkids (List.of_mem_zip hmem).1

/-- What two forests need, one behind the other. -/
theorem need_append (F G : Forest) : need kids fan d s e (F ++ G) B =
    need kids fan d s e F B ++ need kids fan d s e G (B + width fan F) := by
  induction F generalizing B with
  | nil => simp
  | cons t F ih =>
    rw [List.cons_append, need_cons, need_cons, ih, List.append_assoc, width_cons, Nat.add_assoc]

/-- A forest behind the range needs nothing. -/
theorem need_of_lt (h : e < B) : need kids fan d s e F B = [] := by
  induction F generalizing B with
  | nil => rfl
  | cons t F ih => rw [need_split, need_skip (by omega), ih (by omega), List.append_nil]

/-- The null pointers on the way to a range belong to trees that overlap it. -/
theorem need_overlap {t : ℕ × ℕ} (ht : t ∈ need kids fan d s e F B) : t.2 ≤ e ∧ s < t.2 + fan ^ t.1 := by
  induction ht using mem_need_induction with
  | root _ hvisit => exact hvisit
  | below _ _ _ _ _ ih => exact ih
  | head _ _ _ _ _ ih => exact ih
  | tail _ _ _ _ _ ih => exact ih

/-- A row of pointers to data needs some of its positions, each of them once. -/
theorem need_row_sublist (ps : List ℕ) :
    (need kids fan d s e (row 0 ps) B).Sublist ((List.range' B ps.length).map (Prod.mk 0)) := by
  induction ps generalizing B with
  | nil => exact List.Sublist.slnil
  | cons p ps ih =>
    have hrest := ih (B := B + 1)
    rw [row_cons, need_split, List.length_cons, List.range'_succ, List.map_cons]
    by_cases hvisit : B ≤ e ∧ s < B + 1
    · rw [need_leaf hvisit]
      split
      · exact hrest.cons_cons _
      · exact hrest.cons _
    · rw [need_skip (by simpa using hvisit), List.nil_append]
      exact hrest.cons _

/-- Where a pointer is needed, nothing is mapped. -/
theorem lookup_of_mem_need (hkids : ∀ b, (kids b).length = fan) {t : ℕ × ℕ}
    (ht : t ∈ need kids fan d s e F B) (hlow : t.2 ≤ k) (hhigh : k < t.2 + fan ^ t.1) :
    lookup kids fan d F B k = 0 := by
  induction ht using mem_need_induction with
  | root => exact lookup_null
  | below l p B _ _ ih =>
    rcases eq_or_ne p 0 with rfl | hp
    · exact lookup_null
    · rw [if_neg hp] at ih
      rw [lookup_node_full (hkids _) hp, ih]
  | head u F B _ hu ih =>
    have hend := (need_inside hkids hu).2
    rw [width_cons, width_nil, Nat.add_zero] at hend
    rw [lookup_head (hhigh.trans_le hend), ih]
  | tail u F B _ hF ih => rw [lookup_tail ((need_inside hkids hF).1.trans hlow), ih]

/-- Data is needed for unmapped positions only. -/
theorem lookup_of_need (hkids : ∀ b, (kids b).length = fan) (h : (0, k) ∈ need kids fan d s e F B) :
    lookup kids fan d F B k = 0 :=
  lookup_of_mem_need hkids h le_rfl (Nat.lt_succ_self k)

/-- Nothing is needed for a range that is mapped. -/
theorem need_eq_nil (hfan : 0 < fan) (hkids : ∀ b, (kids b).length = fan) (hse : s ≤ e)
    (h : ∀ k, s ≤ k → k ≤ e → B ≤ k → k < B + width fan F → lookup kids fan d F B k ≠ 0) :
    need kids fan d s e F B = [] := by
  induction F using forest_induction generalizing B with
  | nil => rfl
  | leaf p =>
    by_cases hvisit : B ≤ e ∧ s < B + 1
    · have hp := h (max s B) (by omega) (by omega) (by omega) (by simp; omega)
      rw [need_leaf hvisit, if_neg]
      rintro rfl
      exact hp lookup_null
    · rw [need_skip (by simpa using hvisit)]
  | node l p ih =>
    simp only [width_cons, width_nil, Nat.add_zero] at h
    by_cases hvisit : B ≤ e ∧ s < B + fan ^ (l + 1)
    · have hpos : 0 < fan ^ (l + 1) := Nat.pow_pos hfan
      have hp : p ≠ 0 := by
        rintro rfl
        exact h (max s B) (by omega) (by omega) (by omega) (by omega) lookup_null
      rw [need_node hvisit, if_neg hp, if_neg hp, List.nil_append]
      refine ih _ fun k hs he hB hk => ?_
      rw [width_row, hkids, ← pow_succ'] at hk
      rw [← lookup_node_full (hkids _) hp]
      exact h k hs he hB hk
    · rw [need_skip hvisit]
  | cons t F iht ihF =>
    have hpart := width_cons fan t F
    rw [need_split, List.append_eq_nil_iff]
    constructor
    · refine iht fun k hs he hB hk => ?_
      rw [width_cons, width_nil] at hk
      rw [← lookup_head (F := F) (by omega)]
      exact h k hs he hB (by omega)
    · refine ihF fun k hs he hB hk => ?_
      rw [← lookup_tail hB]
      exact h k hs he (by omega) (by omega)

/-- The missing subtree at a position covers the position, lies inside the forest, and is unmapped. -/
theorem hole_spec {r : ℕ × ℕ} (hkids : ∀ b, (kids b).length = fan) (hB : B ≤ k)
    (h : hole kids fan d F B k = some r) : (r.1 ≤ k ∧ k < r.2) ∧ ∀ m, r.1 ≤ m → m < r.2 →
      (B ≤ m ∧ m < B + width fan F) ∧ lookup kids fan d F B m = 0 := by
  have null {l B : ℕ} (hB : B ≤ k) (h : hole kids fan d [(l, 0)] B k = some r) :
      (r.1 ≤ k ∧ k < r.2) ∧ ∀ m, r.1 ≤ m → m < r.2 →
        (B ≤ m ∧ m < B + width fan [(l, 0)]) ∧ lookup kids fan d [(l, 0)] B m = 0 := by
    have hk : k < B + fan ^ l := by
      by_contra hge
      rw [hole_tail (Nat.not_lt.mp hge)] at h
      cases h
    rw [hole_null hk] at h
    cases h
    exact ⟨⟨hB, hk⟩, fun m hm hm' => ⟨⟨hm, by simpa using hm'⟩, lookup_null⟩⟩
  induction F using forest_induction generalizing B with
  | nil => cases h
  | leaf p =>
    rcases eq_or_ne p 0 with rfl | hp
    · exact null hB h
    · rw [hole_leaf hp] at h
      cases h
  | node l p ih =>
    rcases eq_or_ne p 0 with rfl | hp
    · exact null hB h
    · rcases Nat.lt_or_ge k (B + fan ^ (l + 1)) with hk | hk
      · rw [hole_node hp hk] at h
        obtain ⟨hrange, hnull⟩ := ih _ hB h
        refine ⟨hrange, fun m hm hm' => ?_⟩
        obtain ⟨hin, hzero⟩ := hnull m hm hm'
        rw [width_row, hkids, ← pow_succ'] at hin
        exact ⟨by simpa using hin, by rw [lookup_node_full (hkids _) hp, hzero]⟩
      · rw [hole_tail hk] at h
        cases h
  | cons t F iht ihF =>
    rw [width_cons]
    rcases Nat.lt_or_ge k (B + fan ^ t.1) with hk | hk
    · rw [hole_head hk] at h
      obtain ⟨hrange, hnull⟩ := iht hB h
      refine ⟨hrange, fun m hm hm' => ?_⟩
      obtain ⟨⟨hlow, hhigh⟩, hzero⟩ := hnull m hm hm'
      rw [width_cons, width_nil] at hhigh
      exact ⟨⟨hlow, by omega⟩, by rw [lookup_head (by omega), hzero]⟩
    · rw [hole_tail hk] at h
      obtain ⟨hrange, hnull⟩ := ihF hk h
      refine ⟨hrange, fun m hm hm' => ?_⟩
      obtain ⟨⟨hlow, hhigh⟩, hzero⟩ := hnull m hm hm'
      exact ⟨⟨by omega, by omega⟩, by rw [lookup_tail hlow, hzero]⟩

/-- Inside a forest the mapped positions are those that are not missing. -/
theorem hole_eq_none_iff (hkids : ∀ b, (kids b).length = fan) (hB : B ≤ k) (hk : k < B + width fan F) :
    hole kids fan d F B k = none ↔ lookup kids fan d F B k ≠ 0 := by
  induction F using forest_induction generalizing B with
  | nil =>
    rw [width_nil] at hk
    omega
  | leaf p =>
    rcases eq_or_ne p 0 with rfl | hp
    · simp [hole_null (show k < B + fan ^ 0 by simpa using hk)]
    · simp [hole_leaf hp, lookup_leaf, show k < B + 1 by simpa using hk, hp]
  | node l p ih =>
    rw [width_cons, width_nil, Nat.add_zero] at hk
    rcases eq_or_ne p 0 with rfl | hp
    · simp [hole_null hk]
    · rw [hole_node hp hk, lookup_node_full (hkids _) hp]
      exact ih _ hB (by rwa [width_row, hkids, ← pow_succ'])
  | cons t F iht ihF =>
    rw [width_cons] at hk
    rcases Nat.lt_or_ge k (B + fan ^ t.1) with hlt | hge
    · rw [hole_head hlt, lookup_head hlt]
      exact iht hB (by simpa using hlt)
    · rw [hole_tail hge, lookup_tail hge]
      exact ihF hge (by omega)

end PointerForest
