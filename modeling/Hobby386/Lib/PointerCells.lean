import Hobby386.Lib.PointerPaths
import Mathlib.Data.List.Nodup

/-!
# The cells of a forest

The places for pointers in a forest depend on the heights of its trees only: a tree has one for its
root, and a full row below each place of positive height. The null pointers on the paths to a range
are the cells that overlap the range and have no pointer. So filling null pointers leaves exactly the
other ones null.
-/

namespace PointerForest

variable {β : Type*} (kids : β → List ℕ) (fan : ℕ)

/-- The cells of a tree of height `l` that starts at position `B`, in preorder, each with its height and
first position. -/
def treeCells : (l B : ℕ) → List (ℕ × ℕ)
  | 0, B => [(0, B)]
  | l + 1, B => (l + 1, B) :: gather fan (fun _ _ C => treeCells l C) (row l (List.replicate fan 0)) B

/-- The cells of a forest. -/
def cells (F : Forest) (B : ℕ) : List (ℕ × ℕ) := gather fan (fun l _ C => treeCells fan l C) F B

variable {kids fan} {d d' : ℕ → β} {F F' : Forest} {t u : ℕ × ℕ} {l p s e s' e' B k : ℕ}

/-- The cells of a forest are listed tree by tree. -/
theorem cells_cons (t : ℕ × ℕ) : cells fan (t :: F) B = treeCells fan t.1 B ++ cells fan F
    (B + fan ^ t.1) := rfl

/-- The first tree of a forest, as a forest of its own. -/
theorem cells_split (t : ℕ × ℕ) :
    cells fan (t :: F) B = cells fan [t] B ++ cells fan F (B + fan ^ t.1) := by
  rw [cells_cons, cells_cons]
  exact congrArg (· ++ _) (List.append_nil _).symm

/-- A data pointer is one cell. -/
theorem cells_leaf : cells fan [(0, p)] B = [(0, B)] := rfl

/-- The heights determine the cells. -/
theorem cells_congr (h : F'.map Prod.fst = F.map Prod.fst) : cells fan F' B = cells fan F B := by
  induction F generalizing F' B with
  | nil => rw [List.map_eq_nil_iff.mp h]
  | cons t F ih =>
    cases F' with
    | nil => cases h
    | cons t' F' =>
      rw [List.map_cons, List.map_cons, List.cons_eq_cons] at h
      rw [cells_cons, cells_cons, h.1, ih h.2]

/-- The cells of an indirect pointer: its own and those of the row below. -/
theorem cells_node (ps : List ℕ) (hps : ps.length = fan) :
    cells fan [(l + 1, p)] B = (l + 1, B) :: cells fan (row l ps) B := by
  have hrow : cells fan (row l ps) B = cells fan (row l (List.replicate fan 0)) B := by
    apply cells_congr
    simp only [row, List.map_map]
    rw [List.map_congr_left fun _ _ => rfl, List.map_congr_left fun _ _ => rfl]
    simp [Function.comp_def, hps]
  have hgather : cells fan (row l (List.replicate fan 0)) B =
      gather fan (fun _ _ C => treeCells fan l C) (row l (List.replicate fan 0)) B :=
    gather_congr (fun t ht C => by rw [height_of_mem_row ht]) B
  rw [cells_cons, treeCells, hrow, hgather]
  exact List.append_nil _

/-- The ranges of the cells lie inside the forest. -/
theorem cells_inside (ht : t ∈ cells fan F B) : B ≤ t.2 ∧ t.2 + fan ^ t.1 ≤ B + width fan F := by
  induction F using forest_induction generalizing B with
  | nil => cases ht
  | leaf p =>
    rw [cells_leaf, List.mem_singleton] at ht
    subst ht
    simp
  | node l p ih =>
    rw [cells_node (List.replicate fan 0) List.length_replicate, List.mem_cons] at ht
    rw [width_cons, width_nil, Nat.add_zero]
    rcases ht with rfl | ht
    · exact ⟨le_rfl, le_rfl⟩
    · have hbelow := ih _ ht
      rwa [width_row, List.length_replicate, ← pow_succ'] at hbelow
  | cons u F ihu ihF =>
    rw [cells_split, List.mem_append] at ht
    rw [width_cons]
    rcases ht with ht | ht
    · have hhead := ihu ht
      rw [width_cons, width_nil] at hhead
      omega
    · have htail := ihF ht
      omega

/-- A row has no cells above its own height. -/
theorem cells_height (ps : List ℕ) (ht : t ∈ cells fan (row l ps) B) : t.1 ≤ l := by
  have hheight {F : Forest} {l B : ℕ} (ht : t ∈ cells fan F B) (hF : ∀ u ∈ F, u.1 ≤ l) : t.1 ≤ l := by
    induction F using forest_induction generalizing l B with
    | nil => cases ht
    | leaf p =>
      rw [cells_leaf, List.mem_singleton] at ht
      subst ht
      exact Nat.zero_le l
    | node l' p ih =>
      have hlow : l' + 1 ≤ l := hF _ (List.mem_singleton_self _)
      rw [cells_node (List.replicate fan 0) List.length_replicate, List.mem_cons] at ht
      rcases ht with rfl | ht
      · exact hlow
      · exact (ih _ ht fun u hu => (height_of_mem_row hu).le).trans (by omega)
    | cons u F ihu ihF =>
      rw [cells_split, List.mem_append] at ht
      rcases ht with ht | ht
      · exact ihu ht fun v hv => hF v (List.mem_singleton.mp hv ▸ List.mem_cons_self)
      · exact ihF ht fun v hv => hF v (List.mem_cons_of_mem u hv)
  exact hheight ht fun u hu => (height_of_mem_row hu).le

/-- Cells of one height do not overlap. -/
theorem cells_unique (ht : t ∈ cells fan F B) (hu : u ∈ cells fan F B) (hheight : t.1 = u.1)
    (htk : t.2 ≤ k ∧ k < t.2 + fan ^ t.1) (huk : u.2 ≤ k ∧ k < u.2 + fan ^ u.1) : t = u := by
  induction F using forest_induction generalizing B with
  | nil => cases ht
  | leaf p =>
    rw [cells_leaf, List.mem_singleton] at ht hu
    exact ht.trans hu.symm
  | node l p ih =>
    rw [cells_node (List.replicate fan 0) List.length_replicate, List.mem_cons] at ht hu
    have hlow {v : ℕ × ℕ} (hv : v ∈ cells fan (row l (List.replicate fan 0)) B) : v.1 ≠ l + 1 :=
      Nat.ne_of_lt (Nat.lt_succ_of_le (cells_height _ hv))
    rcases ht with rfl | ht
    · rcases hu with rfl | hu
      · rfl
      · exact absurd hheight.symm (hlow hu)
    · rcases hu with rfl | hu
      · exact absurd hheight (hlow ht)
      · exact ih _ ht hu
  | cons v F ihv ihF =>
    rw [cells_split, List.mem_append] at ht hu
    have hapart {a b : ℕ × ℕ} (ha : a ∈ cells fan [v] B) (hb : b ∈ cells fan F (B + fan ^ v.1))
        (hak : k < a.2 + fan ^ a.1) (hbk : b.2 ≤ k) : False := by
      have hend := (cells_inside ha).2
      have hstart := (cells_inside hb).1
      rw [width_cons, width_nil] at hend
      omega
    rcases ht with ht | ht
    · rcases hu with hu | hu
      · exact ihv ht hu
      · exact (hapart ht hu htk.2 huk.1).elim
    · rcases hu with hu | hu
      · exact (hapart hu ht huk.2 htk.1).elim
      · exact ihF ht hu

/-- No cell is listed twice. -/
theorem cells_nodup (hfan : 0 < fan) (F : Forest) (B : ℕ) : (cells fan F B).Nodup := by
  induction F using forest_induction generalizing B with
  | nil => exact List.nodup_nil
  | leaf p => exact List.nodup_singleton _
  | node l p ih =>
    rw [cells_node (List.replicate fan 0) List.length_replicate, List.nodup_cons]
    refine ⟨fun hmem => ?_, ih _ B⟩
    exact absurd (cells_height _ hmem) (Nat.not_succ_le_self l)
  | cons t F iht ihF =>
    rw [cells_split, List.nodup_append]
    refine ⟨iht B, ihF _, fun a ha b hb => ?_⟩
    rintro rfl
    have hpos : 0 < fan ^ a.1 := Nat.pow_pos hfan
    have hend := (cells_inside ha).2
    have hstart := (cells_inside hb).1
    rw [width_cons, width_nil] at hend
    omega

/-- A cell overlaps the positions `s..e`. -/
def Overlaps (fan s e : ℕ) (t : ℕ × ℕ) : Prop := t.2 ≤ e ∧ s < t.2 + fan ^ t.1

instance (fan s e : ℕ) : DecidablePred (Overlaps fan s e) := fun t =>
  inferInstanceAs (Decidable (t.2 ≤ e ∧ s < t.2 + fan ^ t.1))

/-- The null pointers on the paths to a range are the empty cells that overlap it. -/
theorem need_eq_filter (hfan : 0 < fan) (hkids : ∀ b, (kids b).length = fan) : need kids fan d s e F B =
    (cells fan F B).filter fun t => decide (Overlaps fan s e t ∧ node kids fan d t.1 F B t.2 = 0) := by
  have hpos (h : ℕ) : 0 < fan ^ h := Nat.pow_pos hfan
  induction F using forest_induction generalizing B with
  | nil => rfl
  | leaf p =>
    have hnode : node kids fan d 0 [(0, p)] B B = p := by
      rw [node_leaf, if_pos ⟨Nat.lt_succ_self B, rfl⟩]
    rw [cells_leaf, List.filter_cons, List.filter_nil, hnode]
    simp only [Overlaps, pow_zero, decide_eq_true_eq]
    by_cases hvisit : B ≤ e ∧ s < B + 1
    · rw [need_leaf hvisit]
      simp only [hvisit, true_and]
    · rw [need_skip (by simpa using hvisit), if_neg fun h => hvisit h.1]
  | node l p ih =>
    set ps := if p = 0 then List.replicate fan 0 else kids (d p) with hps
    have hlength : ps.length = fan := by
      rw [hps]
      split
      · exact List.length_replicate
      · exact hkids _
    by_cases hvisit : B ≤ e ∧ s < B + fan ^ (l + 1)
    · have hbelow : ∀ t ∈ cells fan (row l ps) B,
          decide (Overlaps fan s e t ∧ node kids fan d t.1 (row l ps) B t.2 = 0) =
            decide (Overlaps fan s e t ∧ node kids fan d t.1 [(l + 1, p)] B t.2 = 0) := by
        intro t ht
        have hne : t.1 ≠ l + 1 := Nat.ne_of_lt (Nat.lt_succ_of_le (cells_height _ ht))
        by_cases hp : p = 0
        · rw [hps, if_pos hp, hp, node_null, node_row_replicate]
        · rw [hps, if_neg hp, node_node (hkids _) hp hne]
      rw [need_node hvisit, cells_node ps hlength, List.filter_cons, ih, List.filter_congr hbelow,
        node_root (Nat.lt_add_of_pos_right (hpos _))]
      by_cases hp : p = 0
      · rw [if_pos hp, if_pos (decide_eq_true ⟨hvisit, hp⟩), List.singleton_append]
      · rw [if_neg hp, if_neg (by simp [hp]), List.nil_append]
    · rw [need_skip hvisit, eq_comm, List.filter_eq_nil_iff]
      intro t ht
      have hinside := cells_inside ht
      rw [width_cons, width_nil, Nat.add_zero] at hinside
      rw [decide_eq_true_eq]
      exact fun h => hvisit ⟨hinside.1.trans h.1.1, h.1.2.trans_le hinside.2⟩
  | cons u F ihu ihF =>
    rw [need_split, cells_split, List.filter_append, ihu, ihF]
    refine congrArg₂ (· ++ ·) (List.filter_congr fun t ht => ?_) (List.filter_congr fun t ht => ?_)
    · have hend := (cells_inside ht).2
      have hcell := hpos t.1
      rw [width_cons, width_nil] at hend
      rw [node_head (F := F) (by omega)]
    · rw [node_tail (cells_inside ht).1]

/-- What is needed for a range are the empty cells that overlap it. -/
theorem mem_need_iff (hfan : 0 < fan) (hkids : ∀ b, (kids b).length = fan) :
    t ∈ need kids fan d s e F B ↔
    t ∈ cells fan F B ∧ Overlaps fan s e t ∧ node kids fan d t.1 F B t.2 = 0 := by
  rw [need_eq_filter hfan hkids, List.mem_filter, decide_eq_true_eq]

/-- No cell is needed twice. -/
theorem need_nodup (hfan : 0 < fan) (hkids : ∀ b, (kids b).length = fan) :
    (need kids fan d s e F B).Nodup := by
  rw [need_eq_filter hfan hkids]
  exact (cells_nodup hfan F B).filter _

/-- What a part of a range needs is needed for the range. -/
theorem need_subset (hfan : 0 < fan) (hkids : ∀ b, (kids b).length = fan) (hs : s' ≤ s) (he : e ≤ e') :
    need kids fan d s e F B ⊆ need kids fan d s' e' F B := by
  intro t ht
  rw [mem_need_iff hfan hkids] at ht ⊢
  exact ⟨ht.1, ⟨ht.2.1.1.trans he, hs.trans_lt ht.2.1.2⟩, ht.2.2⟩

/-- Filling null pointers of a range leaves the other ones. -/
theorem length_need_filled (hfan : 0 < fan) (hkids : ∀ b, (kids b).length = fan)
    (hheights : F'.map Prod.fst = F.map Prod.fst) {T : List (ℕ × ℕ)} (hT : T.Nodup)
    (hsub : T ⊆ need kids fan d s e F B)
    (hnode : ∀ t ∈ cells fan F B, node kids fan d' t.1 F' B t.2 = 0 ↔
      node kids fan d t.1 F B t.2 = 0 ∧ t ∉ T) :
    (need kids fan d' s e F' B).length + T.length = (need kids fan d s e F B).length := by
  have hleft : need kids fan d' s e F' B = (need kids fan d s e F B).filter fun t =>
      !decide (t ∈ T) := by
    rw [need_eq_filter hfan hkids, need_eq_filter hfan hkids, cells_congr hheights, List.filter_filter]
    refine List.filter_congr fun t ht => ?_
    rw [← decide_not, ← Bool.decide_and]
    refine decide_eq_decide.mpr ?_
    rw [hnode t ht]
    exact ⟨fun h => ⟨h.2.2, h.1, h.2.1⟩, fun h => ⟨h.2.1, h.2.2, h.1⟩⟩
  have htaken : ((need kids fan d s e F B).filter fun t => decide (t ∈ T)).Perm T := by
    rw [List.perm_ext_iff_of_nodup ((need_nodup hfan hkids).filter _) hT]
    intro t
    rw [List.mem_filter, decide_eq_true_eq]
    exact and_iff_right_of_imp fun ht => hsub ht
  rw [hleft, ← htaken.length_eq, Nat.add_comm]
  exact (List.length_eq_length_filter_add _).symm

end PointerForest
