import Hobby386.Lib.Runs
import Mathlib.Order.Basic
import Mathlib.Order.Lattice

/-!
# Computations with fuel

A computation that waits in loops is a family of computations, one for each amount of fuel. It ends
when from some amount on all of them end in the same way. Such computations can be put one after the
other: each needs its own fuel, and the largest amount is enough for all.
-/

namespace Fuel

open Runs

variable {ε α : Type*} {f : ℕ → Except ε α} {P Q : α → Prop}

/-- With enough fuel the computation ends with a result that has the property. -/
def Ends (f : ℕ → Except ε α) (P : α → Prop) : Prop :=
  ∃ calls r, P r ∧ ∀ fuel ≥ calls, f fuel = .ok r

namespace Ends

/-- A result is reached at once. -/
theorem ok {a : α} (h : P a) : Ends (fun _ => (.ok a : Except ε α)) P := ⟨0, a, h, fun _ _ => rfl⟩

/-- What is reached satisfies weaker properties as well. -/
theorem mono (hPQ : ∀ a, P a → Q a) (h : Ends f P) : Ends f Q := by
  obtain ⟨calls, r, hr, hrun⟩ := h
  exact ⟨calls, r, hPQ r hr, hrun⟩

/-- The branch that is taken. -/
theorem branch {c : Prop} [Decidable c] {g : ℕ → Except ε α} (hf : c → Ends f P) (hg : ¬c → Ends g P) :
    Ends (fun fuel => if c then f fuel else g fuel) P := by
  by_cases hc : c
  · simpa only [if_pos hc] using hf hc
  · simpa only [if_neg hc] using hg hc

/-- Two computations in a row. -/
theorem bind {ε α β : Type} {f : ℕ → Except ε α} {P : α → Prop} {Q : β → Prop} {g : ℕ → α → Except ε β}
    (h : Ends f P) (hg : ∀ a, P a → Ends (fun fuel => g fuel a) Q) :
    Ends (fun fuel => f fuel >>= g fuel) Q := by
  obtain ⟨calls, a, ha, hrun⟩ := h
  obtain ⟨calls', b, hb, hrun'⟩ := hg a ha
  refine ⟨max calls calls', b, hb, fun fuel hfuel => ?_⟩
  dsimp only
  rw [hrun fuel (le_trans (le_max_left _ _) hfuel)]
  exact hrun' fuel (le_trans (le_max_right _ _) hfuel)

/-- A loop over a list, with an invariant of what is left of the list and the state. -/
theorem foldlM {ε α β : Type} {f : ℕ → β → α → Except ε β} (I : List α → β → Prop)
    (hstep : ∀ a l b, I (a :: l) b → Ends (fun fuel => f fuel b a) (I l)) (l : List α) {b : β}
    (h : I l b) :
    Ends (fun fuel => l.foldlM (f fuel) b) (I []) := by
  induction l generalizing b with
  | nil => exact ok h
  | cons a l ih =>
    simp only [List.foldlM_cons]
    exact (hstep a l b h).bind fun b' hb' => ih hb'

end Ends

/-- One more call. -/
theorem execAll_concat {Call State Result Error : Type}
    {exec : Call → State → Except Error (Result × State)} {cs : List Call} {c : Call}
    {s s₁ s₂ : State} {t : List (Call × Result)} {r : Result} (h : execAll exec cs s = .ok (t, s₁))
    (hlast : exec c s₁ = .ok (r, s₂)) :
    execAll exec (cs ++ [c]) s = .ok (t ++ [(c, r)], s₂) := by
  induction cs generalizing s t with
  | nil =>
    cases h
    rw [List.nil_append, execAll, hlast]
    rfl
  | cons c' cs ih =>
    rw [execAll] at h
    split at h
    · cases h
    · rename_i r' s' hfirst
      split at h
      · cases h
      · rename_i t' s'' hrest
        cases h
        rw [List.cons_append, execAll, hfirst]
        simp only [ih hrest, List.cons_append]

/-- A system that answers every call like another one, up to a relation of the states, makes the
runs of the other one. -/
theorem ends_of_run {Call State State' Result Error Error' : Type}
    {exec : Call → State → Except Error (Result × State)} {rule : State → Call → Prop}
    {exec' : ℕ → Call → State' → Except Error' (Result × State')} {R : State → State' → Prop}
    (hcall : ∀ c s r s₁ s', R s s' → rule s c → exec c s = .ok (r, s₁) →
      Ends (fun fuel => exec' fuel c s') fun r' => r'.1 = r ∧ R s₁ r'.2)
    {s s₁ : State} {t : List (Call × Result)} (h : Run exec (fun _ => rule) s t s₁) {s' : State'}
    (hR : R s s') :
    Ends (fun fuel => execAll (exec' fuel) (t.map Prod.fst) s') fun r => r.1 = t ∧ R s₁ r.2 := by
  induction h with
  | start => exact .ok ⟨rfl, hR⟩
  | @call t s₁ s₂ c r _ allowed result ih =>
    obtain ⟨calls, ⟨t', s₁'⟩, ⟨rfl, hR₁⟩, hrun⟩ := ih
    obtain ⟨calls', ⟨r', s₂'⟩, ⟨rfl, hR₂⟩, hlast⟩ := hcall c s₁ r s₂ s₁' hR₁ allowed result
    refine ⟨max calls calls', (_, s₂'), ⟨rfl, hR₂⟩, fun fuel hfuel => ?_⟩
    rw [List.map_append]
    exact execAll_concat (hrun fuel (le_trans (le_max_left _ _) hfuel))
      (hlast fuel (le_trans (le_max_right _ _) hfuel))

end Fuel
