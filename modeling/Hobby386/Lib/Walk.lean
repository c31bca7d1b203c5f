import Mathlib.Data.Fintype.Card
import Mathlib.Logic.Relation

/-!
# Depth-first walks

A node has a list of items, and an item may lead to another node. The walk visits the items of a
node in order, and behind each item the node that it leads to. It does not remember where it has
been. It ends if and only if no cycle can be reached, and where the nodes form a tree it meets every
item once.
-/

namespace Walk

open Relation

/-- The items of the nodes, and where they lead. -/
structure Network (N ι : Type*) where
  items : N → List ι
  child : ι → Option N

variable {N ι : Type*} (g : Network N ι)

/-- An item leads from one node to the other. -/
def Network.Edge (m n : N) : Prop := ∃ i ∈ g.items m, g.child i = some n

/-- The items of a list, each followed by the walk below it. -/
def Network.walkItems (below : N → Option (List ι)) : List ι → Option (List ι)
  | [] => some []
  | i :: is => do
    let sub ← (g.child i).elim (some []) below
    let rest ← walkItems below is
    some (i :: (sub ++ rest))

/-- The walk from a node, for a depth of at most `fuel` nodes. -/
def Network.walk : (fuel : ℕ) → N → Option (List ι)
  | 0, _ => none
  | fuel + 1, n => g.walkItems (walk fuel) (g.items n)

variable {g} {below below' : N → Option (List ι)} {fuel fuel' : ℕ} {root m n : N} {i j x : ι}
  {is l : List ι}

/-- A walk over items: the first one, what is behind it, and the rest. -/
theorem walkItems_cons_eq_some : g.walkItems below (i :: is) = some l ↔
    ∃ sub rest, (g.child i).elim (some []) below = some sub ∧ g.walkItems below is = some rest ∧
      l = i :: (sub ++ rest) := by
  simp only [Network.walkItems, Option.bind_eq_bind, Option.bind_eq_some_iff, Option.some.injEq]
  constructor
  · rintro ⟨sub, hsub, rest, hrest, rfl⟩
    exact ⟨sub, rest, hsub, hrest, rfl⟩
  · rintro ⟨sub, rest, hsub, hrest, rfl⟩
    exact ⟨sub, hsub, rest, hrest, rfl⟩

/-! ## The end of the walk -/

/-- More fuel for what is behind the items gives the same walk. -/
theorem walkItems_mono (hmono : ∀ n l, below n = some l → below' n = some l)
    (h : g.walkItems below is = some l) :
    g.walkItems below' is = some l := by
  induction is generalizing l with
  | nil => exact h
  | cons i is ih =>
    obtain ⟨sub, rest, hsub, hrest, rfl⟩ := walkItems_cons_eq_some.mp h
    refine walkItems_cons_eq_some.mpr ⟨sub, rest, ?_, ih hrest, rfl⟩
    cases hchild : g.child i with
    | none => simpa [hchild] using hsub
    | some n =>
      rw [hchild] at hsub
      exact hmono n sub hsub

/-- More depth does not change a walk that has ended. -/
theorem walk_mono (hle : fuel ≤ fuel') (h : g.walk fuel n = some l) : g.walk fuel' n = some l := by
  induction fuel generalizing fuel' n l with
  | zero => cases h
  | succ fuel ih =>
    obtain ⟨fuel', rfl⟩ := Nat.exists_eq_add_of_le' (show 1 ≤ fuel' by omega)
    exact walkItems_mono (fun n l => ih (by omega)) h

/-- A walk that ends does so below each of its items. -/
theorem walkItems_ends_iff : (∃ l, g.walkItems below is = some l) ↔
    ∀ i ∈ is, ∀ n, g.child i = some n → ∃ l, below n = some l := by
  induction is with
  | nil => simp [Network.walkItems]
  | cons i is ih =>
    rw [List.forall_mem_cons, ← ih]
    constructor
    · rintro ⟨l, h⟩
      obtain ⟨sub, rest, hsub, hrest, -⟩ := walkItems_cons_eq_some.mp h
      refine ⟨fun n hchild => ⟨sub, ?_⟩, rest, hrest⟩
      rwa [hchild] at hsub
    · rintro ⟨hchild, rest, hrest⟩
      cases hnode : g.child i with
      | none => exact ⟨_, walkItems_cons_eq_some.mpr ⟨[], rest, by rw [hnode]; rfl, hrest, rfl⟩⟩
      | some n =>
        obtain ⟨sub, hsub⟩ := hchild n hnode
        exact ⟨_, walkItems_cons_eq_some.mpr ⟨sub, rest, by rw [hnode]; exact hsub, hrest, rfl⟩⟩

/-- Along edges the depth that is needed decreases. -/
theorem walk_descends (h : g.walk fuel m = some l) (hedge : TransGen g.Edge m n) :
    ∃ fuel' < fuel, ∃ l', g.walk fuel' n = some l' := by
  have hstep : ∀ {fuel m l n}, g.walk fuel m = some l → g.Edge m n →
      ∃ fuel' < fuel, ∃ l', g.walk fuel' n = some l' := by
    intro fuel m l n h hedge
    cases fuel with
    | zero => cases h
    | succ fuel =>
      obtain ⟨i, hi, hchild⟩ := hedge
      exact ⟨fuel, fuel.lt_succ_self, walkItems_ends_iff.mp ⟨l, h⟩ i hi n hchild⟩
  induction hedge with
  | single hedge => exact hstep h hedge
  | tail _ hedge ih =>
    obtain ⟨fuel₁, hlt₁, l₁, h₁⟩ := ih
    obtain ⟨fuel₂, hlt₂, l₂, h₂⟩ := hstep h₁ hedge
    exact ⟨fuel₂, hlt₂.trans hlt₁, l₂, h₂⟩

/-- No walk from a cycle ends. -/
theorem walk_cycle (hcycle : TransGen g.Edge m m) (fuel : ℕ) : g.walk fuel m = none := by
  induction fuel using Nat.strong_induction_on with
  | h fuel ih =>
    cases hwalk : g.walk fuel m with
    | none => rfl
    | some l =>
      obtain ⟨fuel', hlt, l', hwalk'⟩ := walk_descends hwalk hcycle
      rw [ih fuel' hlt] at hwalk'
      cases hwalk'

/-- Some depth is enough for all items of a list. -/
theorem exists_walkItems (h : ∀ i ∈ is, ∀ n, g.child i = some n → ∃ fuel l, g.walk fuel n = some l) :
    ∃ fuel l, g.walkItems (g.walk fuel) is = some l := by
  induction is with
  | nil => exact ⟨0, [], rfl⟩
  | cons i is ih =>
    rw [List.forall_mem_cons] at h
    obtain ⟨fuel, rest, hrest⟩ := ih h.2
    cases hnode : g.child i with
    | none => exact ⟨fuel, _, walkItems_cons_eq_some.mpr ⟨[], rest, by rw [hnode]; rfl, hrest, rfl⟩⟩
    | some n =>
      obtain ⟨fuel', sub, hsub⟩ := h.1 n hnode
      refine ⟨max fuel fuel', _, walkItems_cons_eq_some.mpr ⟨sub, rest, ?_, ?_, rfl⟩⟩
      · rw [hnode]
        exact walk_mono (le_max_right _ _) hsub
      · exact walkItems_mono (fun n l => walk_mono (le_max_left _ _)) hrest

/-- The walk from a node ends if and only if no cycle can be reached. -/
theorem walk_ends_iff [Finite N] : (∃ fuel l, g.walk fuel root = some l) ↔
    ¬∃ m, ReflTransGen g.Edge root m ∧ TransGen g.Edge m m := by
  constructor
  · rintro ⟨fuel, l, hwalk⟩ ⟨m, hreach, hcycle⟩
    rcases reflTransGen_iff_eq_or_transGen.mp hreach with rfl | hpath
    · rw [walk_cycle hcycle] at hwalk
      cases hwalk
    · obtain ⟨fuel', -, l', hwalk'⟩ := walk_descends hwalk hpath
      rw [walk_cycle hcycle] at hwalk'
      cases hwalk'
  · intro hacyclic
    let r : N → N → Prop := fun a b => ReflTransGen g.Edge root b ∧ TransGen g.Edge b a
    have htrans : IsTrans N r := ⟨fun a b c hab hbc => ⟨hbc.1, hbc.2.trans hab.2⟩⟩
    have hirrefl : Std.Irrefl r := ⟨fun a ha => hacyclic ⟨a, ha⟩⟩
    have hall : ∀ m, ReflTransGen g.Edge root m → ∃ fuel l, g.walk fuel m = some l := by
      intro m
      induction m using (Finite.wellFounded_of_trans_of_irrefl r).induction with
      | h m ih =>
        intro hreach
        have hbelow : ∀ i ∈ g.items m, ∀ n, g.child i = some n → ∃ fuel l, g.walk fuel n = some l :=
          fun i hi n hchild => ih n ⟨hreach, .single ⟨i, hi, hchild⟩⟩ (hreach.tail ⟨i, hi, hchild⟩)
        obtain ⟨fuel, l, hitems⟩ := exists_walkItems hbelow
        exact ⟨fuel + 1, l, hitems⟩
    exact hall root .refl

/-! ## The items that are met -/

/-- What a walk over items meets. -/
theorem mem_walkItems
    (hbelow : ∀ n l, below n = some l → ∀ x, x ∈ l ↔ ∃ m, ReflTransGen g.Edge n m ∧ x ∈ g.items m)
    (h : g.walkItems below is = some l) : x ∈ l ↔ x ∈ is ∨
      ∃ i ∈ is, ∃ n, g.child i = some n ∧ ∃ m, ReflTransGen g.Edge n m ∧ x ∈ g.items m := by
  induction is generalizing l with
  | nil =>
    cases h
    simp
  | cons i is ih =>
    obtain ⟨sub, rest, hsub, hrest, rfl⟩ := walkItems_cons_eq_some.mp h
    have hmem : x ∈ sub ↔ ∃ n, g.child i = some n ∧ ∃ m, ReflTransGen g.Edge n m ∧ x ∈ g.items m := by
      cases hnode : g.child i with
      | none =>
        rw [hnode] at hsub
        cases hsub
        simp
      | some n =>
        rw [hnode] at hsub
        simp only [Option.some.injEq, exists_eq_left']
        exact hbelow n sub hsub x
    rw [List.mem_cons, List.mem_append, hmem, ih hrest, List.mem_cons]
    constructor
    · rintro (hx | hx | hx | ⟨j, hj, hx⟩)
      · exact .inl (.inl hx)
      · exact .inr ⟨i, List.mem_cons_self, hx⟩
      · exact .inl (.inr hx)
      · exact .inr ⟨j, List.mem_cons_of_mem i hj, hx⟩
    · rintro ((hx | hx) | ⟨j, hj, hx⟩)
      · exact .inl hx
      · exact .inr (.inr (.inl hx))
      · rcases List.mem_cons.mp hj with rfl | hj
        · exact .inr (.inl hx)
        · exact .inr (.inr (.inr ⟨j, hj, hx⟩))

/-- The walk meets the items of the nodes that can be reached, and no others. -/
theorem mem_walk (h : g.walk fuel n = some l) (x : ι) :
    x ∈ l ↔ ∃ m, ReflTransGen g.Edge n m ∧ x ∈ g.items m := by
  induction fuel generalizing n l x with
  | zero => cases h
  | succ fuel ih =>
    rw [mem_walkItems (fun n l hwalk x => ih hwalk x) h]
    constructor
    · rintro (hx | ⟨i, hi, c, hchild, m, hreach, hx⟩)
      · exact ⟨n, .refl, hx⟩
      · exact ⟨m, .head ⟨i, hi, hchild⟩ hreach, hx⟩
    · rintro ⟨m, hreach, hx⟩
      rcases hreach.cases_head with rfl | ⟨c, ⟨i, hi, hchild⟩, hreach⟩
      · exact .inl hx
      · exact .inr ⟨i, hi, c, hchild, m, hreach, hx⟩

/-! ## Trees -/

/-- Every item belongs to one node, and occurs there once. -/
structure Network.Proper (g : Network N ι) : Prop where
  nodup : ∀ m, (g.items m).Nodup
  owner : ∀ {m m' i}, i ∈ g.items m → i ∈ g.items m' → m = m'

/-- Among the nodes that can be reached no item leads to the root, and only one item leads to each
other node. -/
structure Network.IsTree (g : Network N ι) (root : N) : Prop where
  top : ∀ {m i}, ReflTransGen g.Edge root m → i ∈ g.items m → g.child i ≠ some root
  parent : ∀ {m m' i j n}, ReflTransGen g.Edge root m → ReflTransGen g.Edge root m' → i ∈ g.items m →
    j ∈ g.items m' → g.child i = some n → g.child j = some n → i = j

/-- The node above a node is unique. -/
theorem Network.IsTree.edge_unique (htree : g.IsTree root) (hproper : g.Proper) {m' : N}
    (hm : ReflTransGen g.Edge root m) (hm' : ReflTransGen g.Edge root m') (h : g.Edge m n)
    (h' : g.Edge m' n) :
    m = m' := by
  obtain ⟨i, hi, hchild⟩ := h
  obtain ⟨j, hj, hchild'⟩ := h'
  obtain rfl := htree.parent hm hm' hi hj hchild hchild'
  exact hproper.owner hi hj

/-- A tree has no cycle. -/
theorem Network.IsTree.acyclic (htree : g.IsTree root) (hproper : g.Proper)
    (hreach : ReflTransGen g.Edge root m) :
    ¬TransGen g.Edge m m := by
  induction hreach with
  | refl =>
    intro hcycle
    obtain ⟨p, hpath, i, hi, hchild⟩ := TransGen.tail'_iff.mp hcycle
    exact htree.top hpath hi hchild
  | tail hreach hedge ih =>
    intro hcycle
    obtain ⟨p, hpath, hlast⟩ := TransGen.tail'_iff.mp hcycle
    obtain rfl := htree.edge_unique hproper hreach ((hreach.tail hedge).trans hpath) hedge hlast
    exact ih (TransGen.head' hedge hpath)

/-- Two nodes above a third one lie above each other. -/
theorem Network.IsTree.above (htree : g.IsTree root) (hproper : g.Proper) {a b : N}
    (ha : ReflTransGen g.Edge root a) (hb : ReflTransGen g.Edge root b) (ham : ReflTransGen g.Edge a m)
    (hbm : ReflTransGen g.Edge b m) : ReflTransGen g.Edge a b ∨ ReflTransGen g.Edge b a := by
  induction ham with
  | refl => exact .inr hbm
  | tail ham hedge ih =>
    rcases hbm.cases_tail with rfl | ⟨p, hbp, hlast⟩
    · exact .inl (ham.tail hedge)
    · obtain rfl := htree.edge_unique hproper (ha.trans ham) (hb.trans hbp) hedge hlast
      exact ih hbp

/-- Nothing is below two items of one node. -/
theorem Network.IsTree.below_disjoint (htree : g.IsTree root) (hproper : g.Proper) {a b : N}
    (hn : ReflTransGen g.Edge root n) (hi : i ∈ g.items n) (hj : j ∈ g.items n) (hne : i ≠ j)
    (ha : g.child i = some a) (hb : g.child j = some b) (ham : ReflTransGen g.Edge a m)
    (hbm : ReflTransGen g.Edge b m) : False := by
  have hna : g.Edge n a := ⟨i, hi, ha⟩
  have hnb : g.Edge n b := ⟨j, hj, hb⟩
  -- the upper one of the two nodes would be below itself
  have hupper : ∀ {a b}, g.Edge n a → g.Edge n b → a ≠ b → ReflTransGen g.Edge a b → False := by
    intro a b hna hnb hdiff hab
    rcases hab.cases_tail with heq | ⟨p, hap, hlast⟩
    · exact hdiff heq.symm
    · obtain rfl := htree.edge_unique hproper hn ((hn.tail hna).trans hap) hnb hlast
      exact htree.acyclic hproper hn (TransGen.head' hna hap)
  have hdiff : a ≠ b := by
    rintro rfl
    exact hne (htree.parent hn hn hi hj ha hb)
  rcases htree.above hproper (hn.tail hna) (hn.tail hnb) ham hbm with hab | hba
  · exact hupper hna hnb hdiff hab
  · exact hupper hnb hna hdiff.symm hba

/-- In a tree a list of items of a node, each followed by what is below it, has no item twice. -/
theorem Network.IsTree.nodup_walkItems (htree : g.IsTree root) (hproper : g.Proper)
    (hn : ReflTransGen g.Edge root n) (hbelow : ∀ a l, g.Edge n a → g.walk fuel a = some l → l.Nodup)
    (hsubset : is ⊆ g.items n) (hnodup : is.Nodup) (h : g.walkItems (g.walk fuel) is = some l) :
    l.Nodup := by
  have hcycle : ∀ i ∈ g.items n, ∀ a, g.child i = some a →
      ¬ReflTransGen g.Edge a n := fun i hi a hchild hback =>
    htree.acyclic hproper hn (TransGen.head' ⟨i, hi, hchild⟩ hback)
  induction is generalizing l with
  | nil =>
    cases h
    exact List.nodup_nil
  | cons i is ih =>
    obtain ⟨hi, his⟩ := List.cons_subset.mp hsubset
    obtain ⟨hnot, hnodup⟩ := List.nodup_cons.mp hnodup
    obtain ⟨sub, rest, hsub, hrest, rfl⟩ := walkItems_cons_eq_some.mp h
    have hsubmem : ∀ x ∈ sub, ∃ a, g.child i = some a ∧ ∃ m, ReflTransGen g.Edge a m ∧
        x ∈ g.items m := by
      intro x hx
      cases hchild : g.child i with
      | none =>
        rw [hchild] at hsub
        cases hsub
        cases hx
      | some a =>
        rw [hchild] at hsub
        exact ⟨a, rfl, (mem_walk hsub x).mp hx⟩
    have hrestmem : ∀ x ∈ rest, x ∈ is ∨
        ∃ j ∈ is, ∃ b, g.child j = some b ∧ ∃ m, ReflTransGen g.Edge b m ∧ x ∈ g.items m := fun x hx =>
      (mem_walkItems (fun _ _ hwalk x => mem_walk hwalk x) hrest).mp hx
    have hsubnodup : sub.Nodup := by
      cases hchild : g.child i with
      | none =>
        rw [hchild] at hsub
        cases hsub
        exact List.nodup_nil
      | some a =>
        rw [hchild] at hsub
        exact hbelow a sub ⟨i, hi, hchild⟩ hsub
    rw [List.nodup_cons, List.mem_append, not_or, List.nodup_append']
    refine ⟨⟨fun hx => ?_, fun hx => ?_⟩, hsubnodup, ih his hnodup hrest, fun x hx hx' => ?_⟩
    · obtain ⟨a, hchild, m, hreach, hm⟩ := hsubmem i hx
      rw [hproper.owner hm hi] at hreach
      exact hcycle i hi a hchild hreach
    · rcases hrestmem i hx with hx | ⟨j, hj, b, hchild, m, hreach, hm⟩
      · exact hnot hx
      · rw [hproper.owner hm hi] at hreach
        exact hcycle j (his hj) b hchild hreach
    · obtain ⟨a, hchild, m, hreach, hm⟩ := hsubmem x hx
      rcases hrestmem x hx' with hx' | ⟨j, hj, b, hchild', m', hreach', hm'⟩
      · rw [hproper.owner hm (his hx')] at hreach
        exact hcycle i hi a hchild hreach
      · rw [hproper.owner hm' hm] at hreach'
        have hne : i ≠ j := by
          rintro rfl
          exact hnot hj
        exact htree.below_disjoint hproper hn hi (his hj) hne hchild hchild' hreach hreach'

/-- In a tree the walk meets no item twice. -/
theorem Network.IsTree.nodup_walk (htree : g.IsTree root) (hproper : g.Proper)
    (hn : ReflTransGen g.Edge root n) (h : g.walk fuel n = some l) : l.Nodup := by
  induction fuel generalizing n l with
  | zero => cases h
  | succ fuel ih =>
    exact htree.nodup_walkItems hproper hn (fun a l hedge => ih (hn.tail hedge)) (List.Subset.refl _)
      (hproper.nodup n) h

end Walk
