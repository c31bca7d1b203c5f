import Mathlib.Data.List.Nodup
import Mathlib.Data.List.Range
import Mathlib.Data.List.Zip

/-!
# First-fit allocation over a bit vector

The free units of a vector of `n` units, in ascending order. A first-fit allocator takes the
head of this list, and taking it leaves exactly the tail. Any number of allocations therefore
hands out a prefix of the list the allocator started with.
-/

namespace FirstFit

/-- The units below `n` that are free, in ascending order. -/
def free (used : ℕ → Bool) (n : ℕ) : List ℕ := (List.range n).filter fun k => !used k

/-- An index is free when it is not used. -/
theorem mem_free {used : ℕ → Bool} {n k : ℕ} : k ∈ free used n ↔ k < n ∧ used k = false := by
  simp [free]

/-- No free index is listed twice. -/
theorem nodup_free (used : ℕ → Bool) (n : ℕ) : (free used n).Nodup := List.nodup_range.filter _

/-- The head of the free list is the least free unit. -/
theorem free_eq_cons {used : ℕ → Bool} {n k : ℕ} (hk : k < n) (hfree : used k = false)
    (hleast : ∀ j < k, used j = true) : ∃ rest, free used n = k :: rest := by
  have hsplit : List.range n = List.range k ++ k :: List.range' (k + 1) (n - (k + 1)) := by
    have happend := @List.range'_append_1 0 k (n - (k + 1) + 1)
    rw [Nat.zero_add, List.range'_succ, show k + (n - (k + 1) + 1) = n by omega] at happend
    rw [List.range_eq_range', List.range_eq_range', happend]
  have hnone : (List.range k).filter (fun j => !used j) = [] := by
    simpa [List.filter_eq_nil_iff] using hleast
  refine ⟨(List.range' (k + 1) (n - (k + 1))).filter fun j => !used j, ?_⟩
  rw [free, hsplit, List.filter_append, hnone, List.nil_append,
    List.filter_cons_of_pos (by simp [hfree])]

/-- All units below the head of the free list are used. -/
theorem of_free_eq_cons {used : ℕ → Bool} {n k : ℕ} {rest : List ℕ} (h : free used n = k :: rest) :
    k < n ∧ used k = false ∧ ∀ j < k, used j = true := by
  obtain ⟨hk, hfree⟩ := mem_free.mp (h ▸ List.mem_cons_self : k ∈ free used n)
  have hsorted : (k :: rest).Pairwise (· < ·) := h ▸ List.pairwise_lt_range.filter _
  refine ⟨hk, hfree, fun j hj => ?_⟩
  by_contra hclear
  have hmem : j ∈ k :: rest := h ▸ mem_free.mpr ⟨hj.trans hk, Bool.not_eq_true _ ▸ hclear⟩
  rcases List.mem_cons.mp hmem with rfl | hrest
  · exact absurd hj (Nat.lt_irrefl j)
  · exact absurd (List.rel_of_pairwise_cons hsorted hrest) (Nat.lt_asymm hj)

/-- All units are free when none of them is used. -/
theorem free_eq_range {used : ℕ → Bool} {n : ℕ} (h : ∀ k < n, used k = false) :
    free used n = List.range n := by
  simpa [free, List.filter_eq_self] using h

/-- No unit is free when all of them are used. -/
theorem free_eq_nil {used : ℕ → Bool} {n : ℕ} (h : ∀ k < n, used k = true) : free used n = [] := by
  simpa [free, List.filter_eq_nil_iff] using h

/-- Taking the head of the free list leaves its tail. -/
theorem free_take_head {used used' : ℕ → Bool} {n k : ℕ} {rest : List ℕ}
    (hfree : free used n = k :: rest) (hmark : ∀ j < n, used' j = (used j || decide (j = k))) :
    free used' n = rest := by
  have hnodup : (k :: rest).Nodup := hfree ▸ nodup_free used n
  have hfilter : free used' n = (free used n).filter fun j => decide (j ≠ k) := by
    rw [free, free, List.filter_filter]
    apply List.filter_congr
    intro j hj
    rw [hmark j (List.mem_range.mp hj)]
    cases used j <;> simp
  rw [hfilter, hfree, List.filter_cons_of_neg (by simp), List.filter_eq_self]
  intro j hj
  simpa using fun h : j = k => (List.nodup_cons.mp hnodup).1 (h ▸ hj)

/-- Requests served in order from one list of units: the later ones get what the earlier leave. -/
theorem zip_append_left {α : Type*} (first later : List α) (units : List ℕ) :
    (first ++ later).zip units = first.zip units ++ later.zip (units.drop first.length) := by
  induction first generalizing units with
  | nil => rfl
  | cons a first ih =>
    cases units with
    | nil => simp
    | cons u units =>
      simp only [List.cons_append, List.zip_cons_cons, ih, List.length_cons, List.drop_succ_cons]

/-- Pairs of a zipped list come from equal places. -/
theorem mem_take_iff_zip {α β : Type*} {ts : List α} {units : List β} {m : β} :
    m ∈ units.take ts.length ↔ ∃ t, (t, m) ∈ ts.zip units := by
  constructor
  · intro hm
    obtain ⟨i, hi, rfl⟩ := List.mem_iff_getElem.mp hm
    rw [List.length_take] at hi
    rw [List.getElem_take]
    refine ⟨ts[i], List.mem_iff_getElem.mpr ⟨i, by rw [List.length_zip]; omega, ?_⟩⟩
    rw [List.getElem_zip]
  · rintro ⟨t, ht⟩
    obtain ⟨i, hi, heq⟩ := List.mem_iff_getElem.mp ht
    rw [List.length_zip] at hi
    rw [List.getElem_zip, Prod.mk.injEq] at heq
    refine List.mem_iff_getElem.mpr ⟨i, by rw [List.length_take]; omega, ?_⟩
    rw [List.getElem_take, heq.2]

/-- The requests that are served. -/
theorem served_iff_zip {α : Type*} {ts : List α} {units : List ℕ} {t : α} :
    t ∈ ts.take units.length ↔ ∃ m, (t, m) ∈ ts.zip units := by
  rw [mem_take_iff_zip]
  refine exists_congr fun m => ?_
  rw [← List.zip_swap ts units, List.mem_map]
  constructor
  · rintro ⟨⟨t', m'⟩, hmem, heq⟩
    cases heq
    exact hmem
  · exact fun h => ⟨_, h, rfl⟩

end FirstFit
