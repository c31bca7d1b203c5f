import Hobby386.Grab.Printf

/-!
# The arguments of printf

The caller pushes every argument into a slot of four bytes. `va_arg` moves on by the size of the
type it is asked for, which for a promoted character is not the size of its slot.
-/

namespace Hobby386

open LittleEndian

/-- A part of a format string: an ordinary character, or a conversion with or without a width. -/
inductive Piece
  | lit (c : UInt8)
  | conv (ws : List UInt8) (cv : Conv)

/-- An ordinary character is not the end of the string and starts no conversion, and a width has at
most nine digits. -/
def Piece.Proper : Piece → Prop
  | .lit c => c ≠ 0 ∧ c ≠ 37
  | .conv ws _ => IsWidth ws

/-- The characters of a part. -/
def Piece.format : Piece → List UInt8
  | .lit c => [c]
  | .conv ws cv => 37 :: (ws ++ [cv.char])

/-- The conversions of a format string. -/
def convsOf : List Piece → List Conv
  | [] => []
  | .lit _ :: ps => convsOf ps
  | .conv _ cv :: ps => cv :: convsOf ps

/-- The ordinary characters and the fields of the arguments in order. -/
def outputOf (mem : Memory) : List Piece → (args : List ℕ) → List UInt8
  | [], _ => []
  | .lit c :: ps, args => c :: outputOf mem ps args
  | .conv ws cv :: ps, a :: args => field mem ws cv a ++ outputOf mem ps args
  | .conv _ _ :: _, [] => []

/-- The arguments lie in their slots from an address on. -/
def Pushed (mem : Memory) (ap : ℕ) (args : List ℕ) : Prop :=
  ∀ k v, args[k]? = some v → value mem 4 (ap + 4 * k) = v

/-- Every conversion reads at the slot of its own argument, and the output consists of the ordinary
characters and the fields. -/
def PrintsOwn (mem : Memory) (last : ℕ) (widbuf : List UInt8) (n : ℤ) (ps : List Piece)
    (args : List ℕ) : Prop :=
  ∃ st, printf mem last widbuf n (ps.flatMap Piece.format) = .ok st ∧
    st.reads = (List.range (convsOf ps).length).map (fun k => last + 4 + 4 * k) ∧
    st.out = outputOf mem ps args

/-! ## The addresses -/

/-- The addresses from which conversions read. -/
def readsFrom : (ap : ℕ) → List Conv → List ℕ
  | _, [] => []
  | ap, cv :: cvs => ap :: readsFrom (ap + cv.size) cvs

/-- What is printed for the arguments found there. -/
def outputFrom (mem : Memory) : (ap : ℕ) → List Piece → List UInt8
  | _, [] => []
  | ap, .lit c :: ps => c :: outputFrom mem ap ps
  | ap, .conv ws cv :: ps => field mem ws cv (value mem 4 ap) ++ outputFrom mem (ap + cv.size) ps

variable {mem : Memory} {ps : List Piece} {args : List ℕ}

/-- The loop of `printf` over the parts of a format string. -/
theorem run_pieces (hproper : ∀ p ∈ ps, p.Proper) (st : Printf) (hstate : st.state = .regular) :
    ∃ st', Printf.run mem (ps.flatMap Piece.format) st = .ok st' ∧
      st'.reads = st.reads ++ readsFrom st.ap (convsOf ps) ∧
      st'.out = st.out ++ outputFrom mem st.ap ps := by
  induction ps generalizing st with
  | nil => exact ⟨st, rfl, (List.append_nil _).symm, (List.append_nil _).symm⟩
  | cons p ps ih =>
    rw [List.forall_mem_cons] at hproper
    rw [List.flatMap_cons]
    cases p with
    | lit c =>
      obtain ⟨st', hrun, hreads, hout⟩ := ih hproper.2 { st with out := st.out ++ [c] } hstate
      refine ⟨st', ?_, hreads, ?_⟩
      · rw [Piece.format, List.singleton_append, run_lit hproper.1.2 st hstate, hrun]
      · rw [hout, outputFrom, List.append_assoc, List.singleton_append]
    | conv ws cv =>
      obtain ⟨st', hrun, hreads, hout⟩ := ih hproper.2 (st.after mem ws cv) hstate
      refine ⟨st', ?_, ?_, ?_⟩
      · rw [Piece.format, List.cons_append, List.append_assoc, List.singleton_append,
          run_conv hproper.1 cv st hstate, hrun]
      · rw [hreads, Printf.after, convsOf, readsFrom, List.append_assoc, List.singleton_append]
      · rw [hout, Printf.after, outputFrom, List.append_assoc]

/-- All conversions but `%c` move by four bytes. -/
theorem Conv.size_of_ne {cv : Conv} (h : cv ≠ .c) : cv.size = 4 := by
  cases cv with
  | c => exact absurd rfl h
  | _ => rfl

/-- The addresses are those of the slots if and only if a character is converted at most by the last
conversion. -/
theorem readsFrom_eq_iff (ap : ℕ) (cvs : List Conv) :
    readsFrom ap cvs = (List.range cvs.length).map (fun k => ap + 4 * k) ↔ .c ∉ cvs.dropLast := by
  induction cvs generalizing ap with
  | nil => simp [readsFrom]
  | cons cv cvs ih =>
    have hslots : (List.range (cvs.length + 1)).map (fun k => ap + 4 * k) =
        ap :: (List.range cvs.length).map (fun k => ap + 4 + 4 * k) := by
      rw [List.range_succ_eq_map, List.map_cons, List.map_map]
      congr 1
      apply List.map_congr_left
      intro k _
      dsimp only [Function.comp_apply]
      omega
    rw [readsFrom, List.length_cons, hslots, List.cons_inj_right]
    cases cvs with
    | nil => simp [readsFrom]
    | cons cv' cvs =>
      rw [List.dropLast_cons_of_ne_nil (by simp), List.mem_cons, not_or]
      by_cases hc : cv = .c
      · subst hc
        refine iff_of_false ?_ fun h => h.1 rfl
        rw [readsFrom, List.length_cons, List.range_succ_eq_map, List.map_cons]
        intro h
        have hhead := (List.cons.inj h).1
        rw [Conv.size] at hhead
        omega
      · rw [Conv.size_of_ne hc, ih, and_iff_right (Ne.symm hc)]

/-- At the addresses of the slots the arguments are found. -/
theorem outputFrom_eq {ap : ℕ} (hlast : .c ∉ (convsOf ps).dropLast)
    (hlength : args.length = (convsOf ps).length) (hpushed : Pushed mem ap args) :
    outputFrom mem ap ps = outputOf mem ps args := by
  induction ps generalizing ap args with
  | nil => rfl
  | cons p ps ih =>
    cases p with
    | lit c => rw [outputFrom, outputOf, ih hlast hlength hpushed]
    | conv ws cv =>
      cases args with
      | nil => cases hlength
      | cons a args =>
        rw [convsOf, List.length_cons, List.length_cons, Nat.add_right_cancel_iff] at hlength
        rw [convsOf] at hlast
        have hfirst : value mem 4 ap = a := hpushed 0 a rfl
        rw [outputFrom, outputOf, hfirst]
        congr 1
        cases hrest : convsOf ps with
        | nil =>
          rw [hrest, List.length_nil, List.length_eq_zero_iff] at hlength
          subst hlength
          exact ih (by rw [hrest]; simp) (by rw [hrest]; rfl) fun k v h => by simp at h
        | cons cv' cvs =>
          rw [hrest, List.dropLast_cons_of_ne_nil (by simp), List.mem_cons, not_or, ← hrest] at hlast
          rw [Conv.size_of_ne (Ne.symm hlast.1)]
          refine ih hlast.2 hlength fun k v h => ?_
          have hslot := hpushed (k + 1) v (by rwa [List.getElem?_cons_succ])
          rwa [show ap + 4 * (k + 1) = ap + 4 + 4 * k by omega] at hslot

/-- Every conversion prints its own argument if and only if none follows a `%c`. -/
theorem printf_printsOwn_iff (last : ℕ) (widbuf : List UInt8) (n : ℤ) (hproper : ∀ p ∈ ps, p.Proper)
    (hlength : args.length = (convsOf ps).length) (hpushed : Pushed mem (last + 4) args) :
    PrintsOwn mem last widbuf n ps args ↔ .c ∉ (convsOf ps).dropLast := by
  obtain ⟨st, hrun, hreads, hout⟩ := run_pieces hproper ⟨.regular, widbuf, n, last + 4, [], []⟩ rfl
  rw [← readsFrom_eq_iff (last + 4)]
  constructor
  · rintro ⟨st', hprintf, hslots, -⟩
    rw [printf, hrun] at hprintf
    cases hprintf
    exact hreads.symm.trans hslots
  · intro hslots
    refine ⟨st, hrun, hreads.trans hslots, hout.trans ?_⟩
    exact outputFrom_eq ((readsFrom_eq_iff _ _).mp hslots) hlength hpushed

/-- A memory with two slots. -/
def twoSlots (a b : ℕ) : Memory := fun i => if i < 8 then byte a (i - 4) else byte b (i - 8)

/-- Two values in two slots. -/
theorem pushed_twoSlots {a b : ℕ} (ha : value (twoSlots a b) 4 4 = a)
    (hb : value (twoSlots a b) 4 8 = b) :
    Pushed (twoSlots a b) 4 [a, b] := by
  intro k v hv
  match k with
  | 0 => exact ha.trans (Option.some.inj hv)
  | 1 => exact hb.trans (Option.some.inj hv)
  | k + 2 => simp at hv

/-- The characterisation for `printf("%d=%3c", 5, 'A')`. -/
theorem printf_printsOwn_iff_last :
    PrintsOwn (twoSlots 5 65) 0 [] 0 [.conv [] .d, .lit 61, .conv [51] .c] [5, 65] ↔
      .c ∉ (convsOf [.conv [] .d, .lit 61, .conv [51] .c]).dropLast := by
  refine printf_printsOwn_iff 0 [] 0 ?_ rfl (pushed_twoSlots (by decide +kernel) (by decide +kernel))
  simp only [List.forall_mem_cons, Piece.Proper]
  exact ⟨⟨by simp, by decide⟩, by decide, ⟨by simp [isdigit], by decide⟩, fun _ h => by simp at h⟩

/-- `printf("%c%d", 'A', 5)` prints the number at the second byte of the first slot. -/
theorem not_printf_printsOwn : Pushed (twoSlots 65 5) 4 [65, 5] ∧
    (printf (twoSlots 65 5) 0 [] 0 [37, 99, 37, 100]).map (fun st => (st.reads, st.out)) =
      .ok ([4, 5], [65, 56, 51, 56, 56, 54, 48, 56, 48]) ∧
    outputOf (twoSlots 65 5) [.conv [] .c, .conv [] .d] [65, 5] = [65, 53] ∧
    ¬PrintsOwn (twoSlots 65 5) 0 [] 0 [.conv [] .c, .conv [] .d] [65, 5] := by
  have hrun : (printf (twoSlots 65 5) 0 [] 0 [37, 99, 37, 100]).map (fun st => (st.reads, st.out)) =
      .ok ([4, 5], [65, 56, 51, 56, 56, 54, 48, 56, 48]) := by decide +kernel
  refine ⟨pushed_twoSlots (by decide +kernel) (by decide +kernel), hrun, by decide +kernel, ?_⟩
  rintro ⟨st, hprintf, hreads, -⟩
  have hprintf : printf (twoSlots 65 5) 0 [] 0 [37, 99, 37, 100] = .ok st := hprintf
  rw [hprintf, Except.map] at hrun
  injection hrun with hrun
  rw [(Prod.mk.inj hrun).1] at hreads
  exact absurd hreads (by decide)

end Hobby386
