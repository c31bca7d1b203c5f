import Mathlib.Data.List.TakeWhile

/-!
# Words between separators

The words of a list are its maximal runs of elements that are not separators: the pieces between
the separators without the empty ones. A scanner that skips separators, takes a run and goes on
behind it meets them in order.
-/

namespace Words

variable {α : Type*} (sep : α → Bool)

/-- The maximal runs of elements that are not separators, in order. -/
def words (s : List α) : List (List α) := (s.splitOnP sep).filter fun w => !w.isEmpty

variable {sep} {c : α} {s w rest : List α}

/-- An empty text has no words. -/
@[simp] theorem words_nil : words sep [] = [] := by simp [words]

/-- A separator in front belongs to no word. -/
theorem words_cons_sep (hc : sep c) : words sep (c :: s) = words sep s := by
  simp [words, List.splitOnP_cons_eq_if_modifyHead, hc]

/-- Separators in front belong to no word. -/
theorem words_dropWhile (s : List α) : words sep (s.dropWhile sep) = words sep s := by
  induction s with
  | nil => rfl
  | cons c s ih =>
    by_cases hc : sep c
    · rw [List.dropWhile_cons_of_pos hc, ih, words_cons_sep hc]
    · rw [List.dropWhile_cons_of_neg hc]

/-- The same for a list of separators. -/
theorem words_append_of_forall_sep {u : List α} (hu : ∀ c ∈ u, sep c) (s : List α) :
    words sep (u ++ s) = words sep s := by
  rw [← words_dropWhile, List.dropWhile_append_of_pos hu, words_dropWhile]

/-- Separators alone have no words. -/
theorem words_of_forall_sep (h : ∀ c ∈ s, sep c) : words sep s = [] := by
  rw [← words_dropWhile, List.dropWhile_eq_nil_iff.mpr h, words_nil]

/-- A run that a separator or the end of the list ends is the first word. -/
theorem words_append (hw : w ≠ []) (hrun : ∀ c ∈ w, sep c = false) (hrest : ∀ c ∈ rest.head?, sep c) :
    words sep (w ++ rest) = w :: words sep rest := by
  cases rest with
  | nil => simp [words, List.splitOnP_eq_singleton hrun, hw]
  | cons c rest =>
    have hc : sep c := hrest c rfl
    rw [words_cons_sep hc, words, List.splitOnP_append_cons_of_forall_mem hrun c hc,
      List.filter_cons_of_pos]
    · rfl
    · simpa using hw

/-- What follows a run is nothing or starts with a separator. -/
theorem sep_of_mem_head?_dropWhile (s : List α) : ∀ c ∈ (s.dropWhile fun c => !sep c).head?, sep c := by
  intro c hc
  have hnot := List.head?_dropWhile_not (fun c => !sep c) s
  rw [Option.mem_def.mp hc] at hnot
  simpa using hnot

/-- A list that does not start with a separator starts with its first word. -/
theorem words_of_head (hc : sep c = false) : words sep (c :: s) =
    (c :: s).takeWhile (fun c => !sep c) :: words sep ((c :: s).dropWhile fun c => !sep c) := by
  have hcut := (c :: s).takeWhile_append_dropWhile (p := fun c => !sep c)
  have hfirst : words sep ((c :: s).takeWhile (fun c => !sep c) ++ (c :: s).dropWhile fun c =>
      !sep c) = _ :: _ :=
    words_append (by simp [hc]) (fun d hd => by simpa using List.mem_takeWhile_imp hd)
      (sep_of_mem_head?_dropWhile _)
  rwa [hcut] at hfirst

/-- Induction over the separators and the words of a list. -/
theorem words_induction (sep : α → Bool) {P : List α → Prop} (nil : P [])
    (skip : ∀ c s, sep c → P s → P (c :: s))
    (word : ∀ c s, sep c = false → P ((c :: s).dropWhile fun c => !sep c) → P (c :: s))
    (s : List α) : P s := by
  induction hn : s.length using Nat.strong_induction_on generalizing s with
  | h n ih =>
    cases s with
    | nil => exact nil
    | cons c s =>
      rw [List.length_cons] at hn
      cases hc : sep c with
      | true => exact skip c s hc (ih s.length (by omega) s rfl)
      | false =>
        refine word c s hc (ih _ ?_ _ rfl)
        rw [List.dropWhile_cons_of_pos (by simp [hc]), ← hn]
        exact Nat.lt_succ_of_le (List.length_dropWhile_le _ _)

/-- A word is a part of the list that is not empty and has no separators. -/
theorem of_mem_words (hw : w ∈ words sep s) : w ≠ [] ∧ w <:+: s ∧ ∀ c ∈ w, sep c = false := by
  induction s using words_induction sep with
  | nil => simp at hw
  | skip c s hc ih =>
    rw [words_cons_sep hc] at hw
    obtain ⟨hne, hpart, hfree⟩ := ih hw
    exact ⟨hne, hpart.trans (List.suffix_cons c s).isInfix, hfree⟩
  | word c s hc ih =>
    rw [words_of_head hc, List.mem_cons] at hw
    rcases hw with rfl | hw
    · exact ⟨by simp [hc], (List.takeWhile_prefix _).isInfix,
        fun d hd => by simpa using List.mem_takeWhile_imp hd⟩
    · obtain ⟨hne, hpart, hfree⟩ := ih hw
      exact ⟨hne, hpart.trans (List.dropWhile_suffix _).isInfix, hfree⟩

/-- There are at most as many words as elements. -/
theorem length_words_le (s : List α) : (words sep s).length ≤ s.length := by
  induction s using words_induction sep with
  | nil => simp
  | skip c s hc ih =>
    rw [words_cons_sep hc, List.length_cons]
    omega
  | word c s hc ih =>
    have hrest := List.length_dropWhile_le (fun c => !sep c) s
    rw [List.dropWhile_cons_of_pos (by simp [hc])] at ih
    rw [words_of_head hc, List.length_cons, List.length_cons, List.dropWhile_cons_of_pos (by simp [hc])]
    omega

end Words
