import Hobby386.Lib.Runs

/-!
# Computations that behave alike

Two computations that can fail behave alike when they fail in the same way or both have results,
which are related. A system whose calls behave like those of another one makes the same runs, with
the same results.
-/

namespace Runs

variable {ε α α' β β' : Type}

/-- Both fail in the same way, or both have results that are related. -/
inductive Alike (R : α → α' → Prop) : Except ε α → Except ε α' → Prop
  | ok {a : α} {a' : α'} (h : R a a') : Alike R (.ok a) (.ok a')
  | error (e : ε) : Alike R (.error e) (.error e)

variable {R : α → α' → Prop} {Q : β → β' → Prop} {x : Except ε α} {x' : Except ε α'}

namespace Alike

/-- Two computations in a row. -/
theorem bind {f : α → Except ε β} {f' : α' → Except ε β'} (h : Alike R x x')
    (hf : ∀ a a', R a a' → Alike Q (f a) (f' a')) : Alike Q (x >>= f) (x' >>= f') := by
  cases h with
  | ok h => exact hf _ _ h
  | error e => exact .error e

/-- The results under a function. -/
theorem map {f : α → β} {f' : α' → β'} (h : Alike R x x') (hf : ∀ a a', R a a' → Q (f a) (f' a')) :
    Alike Q (x.map f) (x'.map f') := by
  cases h with
  | ok h => exact .ok (hf _ _ h)
  | error e => exact .error e

/-- The branch that is taken. -/
theorem branch {c : Prop} [Decidable c] {y : Except ε α} {y' : Except ε α'} (h : c → Alike R x x')
    (h' : ¬c → Alike R y y') : Alike R (if c then x else y) (if c then x' else y') := by
  by_cases hc : c
  · simpa only [if_pos hc] using h hc
  · simpa only [if_neg hc] using h' hc

end Alike

variable {Call State State' Result : Type} {exec : Call → State → Except ε (Result × State)}
  {meaning : Call → State' → Except ε (Result × State')} {S : State → State' → Prop}

/-- If the calls behave alike, so do all sequences of calls. -/
theorem alike_execAll (hcall : ∀ c s s', S s s' → Alike (fun r r' => r.1 = r'.1 ∧ S r.2 r'.2)
    (exec c s) (meaning c s'))
    {s : State} {s' : State'} (h : S s s') (cs : List Call) :
    Alike (fun r r' => r.1 = r'.1 ∧ S r.2 r'.2) (execAll exec cs s) (execAll meaning cs s') := by
  induction cs generalizing s s' with
  | nil => exact .ok ⟨rfl, h⟩
  | cons c cs ih =>
    have hfirst := hcall c s s' h
    rw [execAll, execAll]
    generalize exec c s = x at hfirst ⊢
    generalize meaning c s' = x' at hfirst ⊢
    cases hfirst with
    | error e => exact .error e
    | @ok r r' h =>
      obtain ⟨r, s₁⟩ := r
      obtain ⟨r', s₁'⟩ := r'
      obtain ⟨rfl, hs⟩ := h
      have hrest := ih hs
      dsimp only at hrest ⊢
      generalize execAll exec cs s₁ = y at hrest ⊢
      generalize execAll meaning cs s₁' = y' at hrest ⊢
      cases hrest with
      | error e => exact .error e
      | @ok t t' h =>
        obtain ⟨t, s₂⟩ := t
        obtain ⟨t', s₂'⟩ := t'
        obtain ⟨rfl, hs'⟩ := h
        exact .ok ⟨rfl, hs'⟩

end Runs
