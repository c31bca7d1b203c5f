import Mathlib.Data.List.Flatten
import Mathlib.Order.Basic
import Mathlib.Order.Lattice

/-!
# Reading outputs by polling

Inputs arrive in a buffer at any time. A reader looks at the buffer until something is in it, takes
the first input and feeds it to a machine, which has an output for some of its inputs. The reader
goes on until there is one. Whenever the inputs arrive, the output that is read is the first one
that the machine has for all the inputs in a row, and the inputs behind it are left.
-/

namespace Polling

variable {α β σ : Type*}

/-! ## Machines and sources -/

/-- The outputs of a machine for a list of inputs, and its state behind them. -/
def outputs (step : σ → β → Option α × σ) : σ → List β → List α × σ
  | s, [] => ([], s)
  | s, b :: bs =>
    let r := step s b
    let rs := outputs step r.2 bs
    (r.1.toList ++ rs.1, rs.2)

/-- A buffer, and the inputs that arrive in it before each look. -/
structure Source (β : Type*) where
  looks : ℕ
  buffer : List β
  arrive : ℕ → List β

/-- A look at the buffer. -/
def Source.look (d : Source β) : Source β := ⟨d.looks + 1, d.buffer ++ d.arrive d.looks, d.arrive⟩

/-- What the buffer would hold after so many looks if nothing was taken out. -/
def Source.due : Source β → ℕ → List β
  | d, 0 => d.buffer
  | d, n + 1 => due d.look n

/-- The inputs that come first, sooner or later. -/
def Source.Has (d : Source β) (bs : List β) : Prop := ∃ n, bs <+: d.due n

/-- The source that is left after looks and after taking inputs. -/
inductive Source.Read : Source β → List β → Source β → Prop
  | start (d : Source β) : Read d [] d
  | look {d d' : Source β} {bs : List β} (h : Read d.look bs d') : Read d bs d'
  | take {b : β} {rest bs : List β} {looks : ℕ} {arrive : ℕ → List β} {d' : Source β}
      (h : Read ⟨looks, rest, arrive⟩ bs d') : Read ⟨looks, b :: rest, arrive⟩ (b :: bs) d'

/-- Look until there is an input, and take it. -/
def wait : (fuel : ℕ) → Source β → Option (β × Source β)
  | 0, _ => none
  | fuel + 1, d =>
    match d.look.buffer with
    | [] => wait fuel d.look
    | b :: bs => some (b, { d.look with buffer := bs })

/-- Feed inputs to the machine until it has an output. -/
def poll (step : σ → β → Option α × σ) : (fuel : ℕ) → σ → Source β → Option (α × σ × Source β)
  | 0, _, _ => none
  | fuel + 1, s, d =>
    match wait (fuel + 1) d with
    | none => none
    | some (b, d) =>
      match step s b with
      | (some a, s) => some (a, s, d)
      | (none, s) => poll step fuel s d

/-! ## What is due -/

variable {d d' d'' : Source β} {b : β} {bs bs' rest : List β} {n : ℕ}

/-- What is in the buffer is due first. -/
theorem Source.due_cons (looks : ℕ) (b : β) (rest : List β) (arrive : ℕ → List β) (n : ℕ) :
    (Source.mk looks (b :: rest) arrive).due n = b :: (Source.mk looks rest arrive).due n := by
  induction n generalizing looks rest with
  | zero => rfl
  | succ n ih => exact ih (looks + 1) (rest ++ arrive looks)

/-- Later more is due. -/
theorem Source.due_mono (d : Source β) (n m : ℕ) : d.due n <+: d.due (n + m) := by
  induction n generalizing d with
  | zero =>
    rw [Nat.zero_add]
    induction m generalizing d with
    | zero => exact List.prefix_rfl
    | succ m ih => exact (List.prefix_append _ _).trans (ih d.look)
  | succ n ih =>
    rw [Nat.add_right_comm]
    exact ih d.look

namespace Source.Read

/-- Reads, one after the other. -/
theorem trans (h : d.Read bs d') (h' : d'.Read bs' d'') : d.Read (bs ++ bs') d'' := by
  induction h with
  | start => exact h'
  | look _ ih => exact .look (ih h')
  | take _ ih => exact .take (ih h')

/-- What is left is due behind what has been taken. -/
theorem due (h : d.Read bs d') : ∃ m, ∀ n, d.due (n + m) = bs ++ d'.due n := by
  induction h with
  | start => exact ⟨0, fun n => rfl⟩
  | look _ ih =>
    obtain ⟨m, ih⟩ := ih
    exact ⟨m + 1, ih⟩
  | take _ ih =>
    obtain ⟨m, ih⟩ := ih
    refine ⟨m, fun n => ?_⟩
    rw [due_cons, ih, List.cons_append]

/-- What comes behind the inputs taken comes first then. -/
theorem has (h : d.Read bs d') (hd : d.Has (bs ++ rest)) : d'.Has rest := by
  obtain ⟨m, hdue⟩ := h.due
  obtain ⟨n, hn⟩ := hd
  refine ⟨n, ?_⟩
  have hlater := hn.trans (d.due_mono n m)
  rwa [hdue, List.prefix_append_right_inj] at hlater

/-- Only what comes first can be taken. -/
theorem head (h : d.Read [b] d') {c : β} (hd : d.Has (c :: rest)) : b = c := by
  obtain ⟨m, hdue⟩ := h.due
  obtain ⟨n, hn⟩ := hd
  have hlater := hn.trans (d.due_mono n m)
  rw [hdue, List.cons_append, List.cons_prefix_cons] at hlater
  exact hlater.1.symm

end Source.Read

/-! ## What is read -/

/-- If something is in the buffer at the next look, it is taken. -/
theorem wait_of_look (h : d.look.buffer = b :: rest) :
    d.Read [b] { d.look with buffer := rest } ∧
      ∀ fuel ≥ 1, wait fuel d = some (b, { d.look with buffer := rest }) := by
  have htake : Source.Read ⟨d.looks + 1, b :: rest, d.arrive⟩ [b] ⟨d.looks + 1, rest, d.arrive⟩ :=
    .take (.start _)
  refine ⟨.look ?_, fun fuel hfuel => ?_⟩
  · rw [← h] at htake
    exact htake
  · obtain ⟨fuel, rfl⟩ := Nat.exists_eq_add_of_le' hfuel
    rw [wait, h]

/-- If an input comes, it is taken. -/
theorem wait_returns (hd : d.Has (b :: rest)) :
    ∃ calls d', d.Read [b] d' ∧ d'.Has rest ∧ ∀ fuel ≥ calls, wait fuel d = some (b, d') := by
  have hwait : ∃ calls b' d', d.Read [b'] d' ∧ ∀ fuel ≥ calls, wait fuel d = some (b', d') := by
    obtain ⟨n, hn⟩ := hd
    induction n generalizing d with
    | zero =>
      obtain ⟨more, hmore⟩ := hn
      have hlook : d.look.buffer = b :: (rest ++ more ++ d.arrive d.looks) := by
        rw [Source.look, ← (show _ = d.buffer from hmore)]
        rfl
      obtain ⟨hread, hrun⟩ := wait_of_look hlook
      exact ⟨1, b, _, hread, hrun⟩
    | succ n ih =>
      cases hlook : d.look.buffer with
      | cons b' bs =>
        obtain ⟨hread, hrun⟩ := wait_of_look hlook
        exact ⟨1, b', _, hread, hrun⟩
      | nil =>
        obtain ⟨calls, b', d', hread, hrun⟩ := ih hn
        refine ⟨calls + 1, b', d', .look hread, fun fuel hfuel => ?_⟩
        obtain ⟨fuel, rfl⟩ := Nat.exists_eq_add_of_le' (show 1 ≤ fuel by omega)
        rw [wait, hlook]
        exact hrun fuel (by omega)
  obtain ⟨calls, b', d', hread, hrun⟩ := hwait
  obtain rfl := hread.head hd
  exact ⟨calls, d', hread, hread.has hd, hrun⟩

variable {step : σ → β → Option α × σ} {s : σ} {a : α} {as : List α}

/-- The outputs of two streams, one after the other. -/
theorem outputs_append (step : σ → β → Option α × σ) (s : σ) (bs bs' : List β) :
    outputs step s (bs ++ bs') = ((outputs step s bs).1 ++ (outputs step (outputs step s bs).2 bs').1,
      (outputs step (outputs step s bs).2 bs').2) := by
  induction bs generalizing s with
  | nil => rfl
  | cons b bs ih => simp only [List.cons_append, outputs, ih, List.append_assoc]

/-- If the machine has an output for the inputs that come first, it is read, and the inputs up to it
are taken. -/
theorem poll_returns (h : (outputs step s bs).1 = a :: as) (hd : d.Has bs) :
    ∃ calls s' d' read rest, bs = read ++ rest ∧ d.Read read d' ∧ d'.Has rest ∧
      outputs step s read = ([a], s') ∧
      (outputs step s' rest).1 = as ∧ ∀ fuel ≥ calls, poll step fuel s d = some (a, s', d') := by
  induction bs generalizing s d with
  | nil => cases h
  | cons b rest ih =>
    obtain ⟨calls, d₁, hread, hrest, hwait⟩ := wait_returns hd
    obtain ⟨out, s₁, hstep⟩ : ∃ out s₁, step s b = (out, s₁) := ⟨_, _, rfl⟩
    rw [outputs] at h
    simp only [hstep] at h
    cases out with
    | some a' =>
      obtain ⟨rfl, hlater⟩ := List.cons.inj h
      refine ⟨calls + 1, s₁, d₁, [b], rest, rfl, hread, hrest, ?_, hlater, fun fuel hfuel => ?_⟩
      · simp only [outputs, hstep]
        rfl
      · obtain ⟨fuel, rfl⟩ := Nat.exists_eq_add_of_le' (show 1 ≤ fuel by omega)
        rw [poll, hwait _ (by omega)]
        simp only [hstep]
    | none =>
      obtain ⟨calls', s', d', read, rest', rfl, hread', hrest', hout, hlater, hpoll⟩ := ih h hrest
      refine ⟨max calls (calls' + 1), s', d', b :: read, rest', rfl, hread.trans hread', hrest',
        ?_, hlater,
        fun fuel hfuel => ?_⟩
      · rw [outputs]
        simp only [hstep, hout]
        rfl
      · obtain ⟨fuel, rfl⟩ := Nat.exists_eq_add_of_le' (show 1 ≤ fuel by omega)
        rw [poll, hwait _ (by omega)]
        simp only [hstep]
        exact hpoll fuel (by omega)

end Polling
