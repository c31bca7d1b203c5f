import Mathlib.Data.List.Induction

/-!
# Runs of a system of calls

A system is given by what a call does in a state: it fails, or it has a result and leads to a new
state. A run is a sequence of calls with their results. Which calls may be made next can depend on
the run so far.
-/

namespace Runs

variable {Call State Result Error : Type*}

/-- The runs from state `s`, each with the calls made, their results, and the state reached. -/
inductive Run (exec : Call → State → Except Error (Result × State))
    (legal : List (Call × Result) → State → Call → Prop) (s : State) :
    List (Call × Result) → State → Prop
  | start : Run exec legal s [] s
  | call {t : List (Call × Result)} {s₁ s₂ : State} {c : Call} {r : Result}
      (run : Run exec legal s t s₁) (allowed : legal t s₁ c) (result : exec c s₁ = .ok (r, s₂)) :
      Run exec legal s (t ++ [(c, r)]) s₂

variable {exec : Call → State → Except Error (Result × State)}
  {legal : List (Call × Result) → State → Call → Prop} {s s' : State} {t : List (Call × Result)}

/-- A property of the trace and the state that holds at the start and is kept by every legal call
holds after every run. -/
theorem Run.invariant {I : List (Call × Result) → State → Prop} (hstart : I [] s)
    (hcall : ∀ t s₁ c r s₂, I t s₁ → legal t s₁ c → exec c s₁ = .ok (r, s₂) → I (t ++ [(c, r)]) s₂)
    (h : Run exec legal s t s') : I t s' := by
  induction h with
  | start => exact hstart
  | call _ allowed result ih => exact hcall _ _ _ _ _ ih allowed result

/-- The same for a property of the state. -/
theorem Run.preserves {I : State → Prop}
    (hcall : ∀ t s₁ c r s₂, I s₁ → legal t s₁ c → exec c s₁ = .ok (r, s₂) → I s₂)
    (h : Run exec legal s t s') (hstart : I s) : I s' :=
  h.invariant (I := fun _ s' => I s') hstart hcall

/-- A run under one rule is a run under a weaker one. -/
theorem Run.mono {legal' : List (Call × Result) → State → Call → Prop}
    (himp : ∀ t s c, legal t s c → legal' t s c) (h : Run exec legal s t s') :
    Run exec legal' s t s' := by
  induction h with
  | start => exact .start
  | call _ allowed result ih => exact ih.call (himp _ _ _ allowed) result

/-- Runs whose rule does not depend on the calls made before can be put together. -/
theorem Run.trans {rule : State → Call → Prop} {s₁ s₂ : State} {t' : List (Call × Result)}
    (h : Run exec (fun _ => rule) s t s₁) (h' : Run exec (fun _ => rule) s₁ t' s₂) :
    Run exec (fun _ => rule) s (t ++ t') s₂ := by
  induction h' with
  | start => rwa [List.append_nil]
  | call _ allowed result ih =>
    rw [← List.append_assoc]
    exact ih.call allowed result

/-- The last call of a run. -/
theorem Run.last {c : Call} {r : Result} (h : Run exec legal s (t ++ [(c, r)]) s') :
    ∃ s₁, Run exec legal s t s₁ ∧ legal t s₁ c ∧ exec c s₁ = .ok (r, s') := by
  generalize htrace : t ++ [(c, r)] = u at h
  cases h with
  | start => exact absurd htrace (by simp)
  | @call t₁ s₁ _ c₁ r₁ run allowed result =>
    obtain ⟨rfl, hlast⟩ := List.append_inj' htrace rfl
    cases hlast
    exact ⟨s₁, run, allowed, result⟩

/-- Making calls one after the other. -/
def execAll (exec : Call → State → Except Error (Result × State)) :
    List Call → State → Except Error (List (Call × Result) × State)
  | [], s => .ok ([], s)
  | c :: cs, s =>
    match exec c s with
    | .error e => .error e
    | .ok (r, s₁) =>
      match execAll exec cs s₁ with
      | .error e => .error e
      | .ok (t, s₂) => .ok ((c, r) :: t, s₂)

/-- Calls that are legal in every state make a run. -/
theorem Run.of_execAll {rule : Call → Prop} {cs : List Call} (hcs : ∀ c ∈ cs, rule c)
    (h : execAll exec cs s = .ok (t, s')) : Run exec (fun _ _ => rule) s t s' := by
  induction cs generalizing s t with
  | nil =>
    cases h
    exact .start
  | cons c cs ih =>
    rw [List.forall_mem_cons] at hcs
    rw [execAll] at h
    split at h
    · cases h
    · rename_i r s₁ hfirst
      split at h
      · cases h
      · rename_i t' s₂ hrest
        cases h
        have hcall : Run exec (fun _ _ => rule) s ([] ++ [(c, r)]) s₁ := .call .start hcs.1 hfirst
        exact hcall.trans (ih hcs.2 hrest)

/-- Calls that are always legal, have one result, and change nothing can be inserted anywhere in a
run and left out of it. -/
theorem Run.filter_iff {rule : State → Call → Prop} {I : State → Prop} (idle : Call → Bool)
    (answer : Result) (hidle : ∀ s c, I s → idle c = true → rule s c ∧ exec c s = .ok (answer, s))
    (hcall : ∀ s c r s', I s → rule s c → exec c s = .ok (r, s') → I s') (hstart : I s) :
    Run exec (fun _ => rule) s t s' ↔ (∀ e ∈ t, idle e.1 = true → e.2 = answer) ∧
      Run exec (fun _ => rule) s (t.filter fun e => !idle e.1) s' := by
  constructor
  · intro h
    induction h with
    | start => exact ⟨fun e he => absurd he List.not_mem_nil, .start⟩
    | @call t s₁ s₂ c r run allowed result ih =>
      have hinv := run.preserves (fun _ s c r s' hs => hcall s c r s' hs) hstart
      obtain ⟨hanswers, hrun⟩ := ih
      rw [List.filter_append]
      by_cases hc : idle c = true
      · obtain ⟨-, hexec⟩ := hidle s₁ c hinv hc
        rw [result] at hexec
        cases hexec
        rw [List.filter_cons_of_neg (by simp [hc]), List.filter_nil, List.append_nil]
        refine ⟨fun e he hidl => ?_, hrun⟩
        rcases List.mem_append.mp he with he | he
        · exact hanswers e he hidl
        · rw [List.mem_singleton.mp he]
      · rw [List.filter_cons_of_pos (by simp [hc]), List.filter_nil]
        refine ⟨fun e he hidl => ?_, hrun.call allowed result⟩
        rcases List.mem_append.mp he with he | he
        · exact hanswers e he hidl
        · rw [List.mem_singleton.mp he] at hidl
          exact absurd hidl hc
  · rintro ⟨hanswers, hrun⟩
    induction t using List.reverseRecOn generalizing s' with
    | nil => exact hrun
    | append_singleton t e ih =>
      obtain ⟨c, r⟩ := e
      have htail : ∀ e ∈ t, idle e.1 = true → e.2 = answer := fun e he =>
        hanswers e (List.mem_append_left _ he)
      rw [List.filter_append] at hrun
      by_cases hc : idle c = true
      · rw [List.filter_cons_of_neg (by simp [hc]), List.filter_nil, List.append_nil] at hrun
        have hbefore := ih htail hrun
        have hinv := hbefore.preserves (fun _ s c r s' hs => hcall s c r s' hs) hstart
        obtain ⟨hlegal, hexec⟩ := hidle s' c hinv hc
        obtain rfl : r = answer := hanswers (c, r) (by simp) hc
        exact hbefore.call hlegal hexec
      · rw [List.filter_cons_of_pos (by simp [hc]), List.filter_nil] at hrun
        obtain ⟨s₁, hfront, hlegal, hexec⟩ := hrun.last
        exact (ih htail hfront).call hlegal hexec

/-- A system that answers every call like another one, up to a translation of the results and a
relation of the states, makes every sequence of calls like it. -/
theorem execAll_simulates {State' Result' Error' : Type*}
    {exec' : Call → State' → Except Error' (Result' × State')} {R : State → State' → Prop}
    (answer : Result → Result') (hcall : ∀ c s s', R s s' → ∃ r s₁ s₁', exec c s = .ok (r, s₁) ∧
    exec' c s' = .ok (answer r, s₁') ∧ R s₁ s₁')
    (cs : List Call) {s : State} {s' : State'} (h : R s s') :
    ∃ t s₁ s₁', execAll exec cs s = .ok (t, s₁) ∧
      execAll exec' cs s' = .ok (t.map fun e => (e.1, answer e.2), s₁') ∧ R s₁ s₁' := by
  induction cs generalizing s s' with
  | nil => exact ⟨[], s, s', rfl, rfl, h⟩
  | cons c cs ih =>
    obtain ⟨r, s₁, s₁', hfirst, hfirst', hrel⟩ := hcall c s s' h
    obtain ⟨t, s₂, s₂', hrest, hrest', hrel'⟩ := ih hrel
    refine ⟨(c, r) :: t, s₂, s₂', ?_, ?_, hrel'⟩
    · simp only [execAll, hfirst, hrest]
    · simp only [execAll, hfirst', hrest', List.map_cons]

end Runs
