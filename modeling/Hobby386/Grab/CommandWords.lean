import Hobby386.Lib.Words
import Hobby386.Grab.Shell

/-!
# The words of a command line

What `process_command`, `ls` and `set` apply `nextword` to. A pointer into the line stands for the
text from there on. The pointer behind a word is null when the word ends the line, and the handlers
use it as it is.
-/

namespace Hobby386

open Words

/-- The words of a line: its maximal runs of characters other than blanks and tabs. -/
def CString.lineWords (s : CString) : List (List UInt8) := words isspace s.bytes

/-- The pointers that `nextword` and the loop over `'='` are applied to, and the words that
`nextword` gives. -/
structure Split where
  pointers : List (Option CString)
  received : List (Option CString)

/-- `ls`. Nothing happens behind a null pointer. -/
def lsSplit (args : Option CString) : Split :=
  match args with
  | none => ⟨[none], []⟩
  | some args => ⟨[some args], [(nextword args).1]⟩

/-- `set`: the loop over `'='`, the name and the value. -/
def setSplit (args : Option CString) : Split :=
  match args with
  | none => ⟨[none], []⟩
  | some args =>
    match nextword args.blankEquals with
    | (none, _) => ⟨[some args, some args.blankEquals], [none]⟩
    | (some name, none) => ⟨[some args, some args.blankEquals, none], [some name]⟩
    | (some name, some rest) =>
      ⟨[some args, some args.blankEquals, some rest], [some name, (nextword rest).1]⟩

/-- `process_command`. -/
def commandSplit (cmd : CString) : Split :=
  match nextword cmd with
  | (none, _) => ⟨[some cmd], [none]⟩
  | (some this, next) =>
    let s :=
      if strncmp [108, 115] this.bytes 2 = 0 then lsSplit next
      else if strncmp [98, 111, 111, 116] this.bytes 4 = 0 then ⟨[], []⟩
      else if strncmp [115, 101, 116] this.bytes 3 = 0 then setSplit next
      else ⟨[], []⟩
    ⟨some cmd :: s.pointers, some this :: s.received⟩

/-- The command word of the line is `name`. -/
def CString.IsCommand (cmd : CString) (name : List UInt8) : Prop := cmd.lineWords.head? = some name

instance (cmd : CString) (name : List UInt8) : Decidable (cmd.IsCommand name) :=
  inferInstanceAs (Decidable (_ = _))

/-- The line whose words the handlers are to receive: `set` sees blanks for `'='`. -/
def CString.seen (cmd : CString) : CString := if cmd.IsCommand [115, 101, 116] then
  cmd.blankEquals else cmd

/-- A pointer is one into the line. -/
def CString.Reaches (cmd : CString) (p : Option CString) : Prop :=
  ∃ s, p = some s ∧ (s.bytes <:+ cmd.bytes ∨ s.bytes <:+ cmd.seen.bytes)

/-- Words are received in order, and null words behind the last one. -/
def Receives (received : List (Option CString)) (ws : List (List UInt8)) : Prop :=
  ∀ (i : ℕ) (w : Option CString), received[i]? = some w → w.map CString.bytes = ws[i]?

/-- Every pointer is one into the line, and the words received are the words of the line. -/
structure SplitsSafely (cmd : CString) : Prop where
  pointers : ∀ p ∈ (commandSplit cmd).pointers, cmd.Reaches p
  received : Receives (commandSplit cmd).received cmd.seen.lineWords

/-- The line ends with a blank or a tab. -/
def CString.EndsBlank (s : CString) : Prop := ∃ c ∈ s.bytes.getLast?, isspace c = true

/-- The line ends with the word behind which a handler looks for another one. -/
def CutShort (cmd : CString) : Prop :=
  ¬cmd.seen.EndsBlank ∧
    (cmd.lineWords = [[108, 115]] ∨ cmd.IsCommand [115, 101, 116] ∧ cmd.seen.lineWords.length ≤ 2)

/-! ## `nextword` -/

/-- What `nextword` makes of a text: it has no word, ends with its first word, or goes on behind it. -/
inductive NextWord (p : CString) : Option CString → Option CString → Prop
  | blank (hblank : ∀ c ∈ p.bytes, isspace c = true) : NextWord p none none
  | last (w : CString) (u : List UInt8) (hu : ∀ c ∈ u, isspace c = true) (hp : p.bytes = u ++ w.bytes)
      (hw : w.bytes ≠ []) (hrun : ∀ c ∈ w.bytes, isspace c = false) : NextWord p (some w) none
  | more (w rest : CString) (u : List UInt8) (c : UInt8) (hu : ∀ c ∈ u, isspace c = true)
      (hp : p.bytes = u ++ (w.bytes ++ c :: rest.bytes)) (hw : w.bytes ≠ [])
      (hrun : ∀ c ∈ w.bytes, isspace c = false) (hc : isspace c = true) : NextWord p (some w) (some rest)

/-- `nextword` finds the next word. -/
theorem nextWord_nextword (p : CString) : NextWord p (nextword p).1 (nextword p).2 := by
  have hcut : p.bytes.takeWhile isspace ++ p.bytes.dropWhile isspace = p.bytes :=
    List.takeWhile_append_dropWhile
  have hu : ∀ c ∈ p.bytes.takeWhile isspace, isspace c = true := fun c hc => List.mem_takeWhile_imp hc
  have hhead : ∀ c ∈ (p.bytes.dropWhile isspace).head?, isspace c = false := by
    intro c hc
    have hnot := List.head?_dropWhile_not isspace p.bytes
    rw [Option.mem_def.mp hc] at hnot
    simpa using hnot
  rw [nextword]
  dsimp only
  generalize p.bytes.takeWhile isspace = u at *
  generalize p.bytes.dropWhile isspace = s at *
  have hdrop : p.bytes.drop u.length = s := by rw [← hcut, List.drop_left]
  have hlength : p.bytes.length = u.length + s.length := by rw [← hcut, List.length_append]
  rw [hdrop]
  cases s with
  | nil =>
    rw [if_pos (by simpa using hlength.symm), if_pos (by simpa using hlength.symm)]
    exact .blank fun c hc => hu c (by rwa [← hcut, List.append_nil] at hc)
  | cons c s =>
    have hc := hhead c rfl
    have hsplit := (c :: s).takeWhile_append_dropWhile (p := fun c => !isspace c)
    have hrun : ∀ d ∈ (c :: s).takeWhile fun c => !isspace c, isspace d = false :=
      fun d hd => by simpa using List.mem_takeWhile_imp hd
    have hne : (c :: s).takeWhile (fun c => !isspace c) ≠ [] := by simp [hc]
    have hstop : ∀ d ∈ ((c :: s).dropWhile fun c => !isspace c).head?, isspace d = true :=
      sep_of_mem_head?_dropWhile _
    generalize (c :: s).takeWhile (fun c => !isspace c) = w at *
    generalize (c :: s).dropWhile (fun c => !isspace c) = r at *
    have hword : (p.slice u.length w.length).bytes = w := by
      rw [CString.slice]
      dsimp only
      rw [hdrop, ← hsplit, List.take_left]
    have hsum : p.bytes.length = u.length + w.length + r.length := by
      rw [hlength, ← hsplit, List.length_append, Nat.add_assoc]
    have hpos : 0 < w.length := List.length_pos_of_ne_nil hne
    rw [if_neg (by omega)]
    cases r with
    | nil =>
      rw [if_pos (by simpa using hsum.symm)]
      refine .last _ u hu ?_ (by rwa [hword]) (by rwa [hword])
      rw [hword, ← hcut, ← hsplit, List.append_nil]
    | cons d r =>
      have hrest : (p.slice (u.length + w.length + 1)
          (p.bytes.length - (u.length + w.length + 1))).bytes = r := by
        have hp : p.bytes = (u ++ w ++ [d]) ++ r := by
          rw [← hcut, ← hsplit]
          simp
        rw [CString.slice]
        dsimp only
        rw [hp, List.drop_left' (by simp; omega), List.take_of_length_le (by simp; omega)]
      rw [if_neg (by rw [hsum, List.length_cons]; omega)]
      refine .more _ _ u d hu ?_ (by rwa [hword]) (by rwa [hword]) (hstop d rfl)
      rw [hword, hrest, ← hcut, ← hsplit]

section Words

variable {p : CString} {word rest : CString}

/-- The word is the first one of the text. -/
theorem NextWord.word_eq {word rest : Option CString} (h : NextWord p word rest) :
    word.map CString.bytes = p.lineWords.head? := by
  rw [CString.lineWords]
  cases h with
  | blank hblank => rw [words_of_forall_sep hblank]; rfl
  | last w u hu hp hw hrun =>
    rw [hp, words_append_of_forall_sep hu, ← List.append_nil w.bytes, words_append hw hrun (by simp)]
    rfl
  | more w rest u c hu hp hw hrun hc =>
    rw [hp, words_append_of_forall_sep hu, words_append hw hrun (by simpa using hc)]
    rfl

/-- A text that ends with its first word has no other, and does not end with a blank. -/
theorem NextWord.of_last (h : NextWord p (some word) none) : p.lineWords = [word.bytes] ∧
    ¬p.EndsBlank := by
  cases h with
  | last w u hu hp hw hrun =>
    constructor
    · rw [CString.lineWords, hp, words_append_of_forall_sep hu, ← List.append_nil word.bytes,
        words_append hw hrun (by simp), words_nil, List.append_nil]
    · rintro ⟨c, hc, hblank⟩
      rw [hp, List.getLast?_append_of_ne_nil _ hw] at hc
      rw [hrun c (List.mem_of_getLast? hc)] at hblank
      cases hblank

/-- The other words of a text are behind its first one. -/
theorem NextWord.of_more (h : NextWord p (some word) (some rest)) :
    p.lineWords = word.bytes :: rest.lineWords ∧ rest.bytes <:+ p.bytes ∧
      (p.EndsBlank ↔ rest.bytes = [] ∨ rest.EndsBlank) := by
  cases h with
  | more w rest u c hu hp hw hrun hc =>
    refine ⟨?_, ⟨u ++ (word.bytes ++ [c]), by rw [hp]; simp⟩, ?_⟩
    · rw [CString.lineWords, hp, words_append_of_forall_sep hu, words_append hw hrun (by simpa using hc),
        words_cons_sep hc]
      rfl
    · rw [CString.EndsBlank, CString.EndsBlank, hp, ← List.append_assoc]
      cases hrest : rest.bytes with
      | nil => simp [hc]
      | cons d r => simp [List.getLast?_append, List.getLast?_cons]

/-- A text without words that is not empty ends with a blank. -/
theorem endsBlank_of_lineWords_eq_nil (h : p.lineWords = []) : p.bytes = [] ∨ p.EndsBlank := by
  have hspec := nextWord_nextword p
  generalize (nextword p).1 = word at hspec
  generalize (nextword p).2 = rest at hspec
  have hword := hspec.word_eq
  rw [h] at hword
  cases hspec with
  | blank hblank =>
    by_cases hp : p.bytes = []
    · exact .inl hp
    · exact .inr ⟨_, List.getLast?_eq_some_getLast hp, hblank _ (List.getLast_mem hp)⟩
  | last => cases hword
  | more => cases hword

/-- Without words nothing is received. -/
theorem receives_nil {ws : List (List UInt8)} : Receives [] ws := fun i w h => by simp at h

/-- What is received, word by word. -/
theorem receives_cons {word : Option CString} {rs : List (Option CString)} {ws : List (List UInt8)} :
    Receives (word :: rs) ws ↔ word.map CString.bytes = ws.head? ∧ Receives rs ws.tail := by
  constructor
  · intro h
    refine ⟨?_, fun i w hw => ?_⟩
    · rw [List.head?_eq_getElem?]
      exact h 0 word rfl
    · rw [List.getElem?_tail]
      exact h (i + 1) w hw
  · rintro ⟨hfirst, hrest⟩ i w hw
    cases i with
    | zero =>
      cases hw
      rw [hfirst, List.head?_eq_getElem?]
    | succ i => exact (hrest i w hw).trans (List.getElem?_tail ..)

end Words

/-! ## The handlers -/

/-- `strncmp` with the name of a command finds the word that is the name. -/
theorem strncmp_eq_zero_iff {name : List UInt8} (hname : 0 ∉ name) {n : ℕ} (hn : 0 < n)
    (word : CString) :
    strncmp name word.bytes n = 0 ↔ word.bytes = name := by
  rw [strncmp, if_pos hn, strcmp_eq_zero_iff, cstr_of_nulFree hname, cstr_of_nulFree word.nulFree,
    eq_comm]

/-- A text without `'='` stays as it is. -/
theorem map_blankEquals {s : List UInt8} (h : 61 ∉ s) : (s.map fun c => if c = 61 then 32 else
    c) = s := by
  have hid : (s.map fun c => if c = 61 then 32 else c) = s.map id :=
    List.map_congr_left fun c hc => if_neg (by rintro rfl; exact h hc)
  rw [hid, List.map_id]

/-- The loop of `set` changes nothing in blanks and in words without `'='`. -/
theorem NextWord.blankEquals {p : CString} {word rest : Option CString} (h : NextWord p word rest)
    (hword : ∀ w, word = some w → 61 ∉ w.bytes) :
    NextWord p.blankEquals word (rest.map CString.blankEquals) := by
  have hkeep : ∀ {u : List UInt8}, (∀ c ∈ u, isspace c = true) → 61 ∉ u := fun hu hc => by
    cases hu 61 hc
  cases h with
  | blank hblank =>
    have hbytes : p.blankEquals.bytes = p.bytes := map_blankEquals (hkeep hblank)
    exact .blank (hbytes ▸ hblank)
  | last w u hu hp hw hrun =>
    refine .last w u hu ?_ hw hrun
    rw [CString.blankEquals]
    dsimp only
    rw [hp, List.map_append, map_blankEquals (hkeep hu), map_blankEquals (hword w rfl)]
  | more w rest u c hu hp hw hrun hc =>
    have hne : c ≠ 61 := by
      rintro rfl
      cases hc
    refine .more w _ u c hu ?_ hw hrun hc
    rw [CString.blankEquals]
    dsimp only
    rw [hp, List.map_append, List.map_append, List.map_cons, map_blankEquals (hkeep hu),
      map_blankEquals (hword w rfl), if_neg hne]
    rfl

section Handlers

variable {cmd this : CString} {next : Option CString} (h : NextWord cmd (some this) next)

include h

/-- A line is the command of its first word. -/
theorem isCommand_iff (name : List UInt8) : cmd.IsCommand name ↔ this.bytes = name := by
  rw [CString.IsCommand, ← h.word_eq]
  simp

/-- Lines other than `set` are seen as they are. -/
theorem seen_of_ne (hset : this.bytes ≠ [115, 101, 116]) : cmd.seen = cmd :=
  if_neg fun hcommand => hset ((isCommand_iff h _).mp hcommand)

/-- The first word of the line does not depend on the blanks for `'='`. -/
theorem seen_head? : some this.bytes = cmd.seen.lineWords.head? := by
  by_cases hset : this.bytes = [115, 101, 116]
  · rw [show cmd.seen = cmd.blankEquals from if_pos ((isCommand_iff h _).mpr hset)]
    refine (h.blankEquals fun w hw => ?_).word_eq
    cases hw
    rw [hset]
    decide
  · rw [seen_of_ne h hset]
    exact h.word_eq

/-- The first word of a line. -/
theorem bytes_eq_of_lineWords {w : List UInt8} {ws : List (List UInt8)}
    (hwords : cmd.lineWords = w :: ws) :
    this.bytes = w := by
  have hfirst := h.word_eq
  rw [hwords] at hfirst
  exact Option.some.inj hfirst

/-- A line for `ls` is cut short if it ends with the name of the command. -/
theorem cutShort_iff_of_ls (hls : this.bytes = [108, 115]) :
    CutShort cmd ↔ ¬cmd.EndsBlank ∧ cmd.lineWords = [[108, 115]] := by
  have hne : this.bytes ≠ [115, 101, 116] := by
    rw [hls]
    decide
  rw [CutShort, seen_of_ne h hne, or_iff_left fun hset => hne ((isCommand_iff h _).mp hset.1)]

/-- A line for `set` is cut short if it ends with the name of the command or of the setting. -/
theorem cutShort_iff_of_set (hset : this.bytes = [115, 101, 116]) :
    CutShort cmd ↔ ¬cmd.seen.EndsBlank ∧ cmd.seen.lineWords.length ≤ 2 := by
  have hne : cmd.lineWords ≠ [[108, 115]] := by
    intro hone
    have hls := bytes_eq_of_lineWords h hone
    rw [hset] at hls
    cases hls
  rw [CutShort, or_iff_right hne, and_iff_right ((isCommand_iff h _).mpr hset)]

/-- The other commands look for no word. -/
theorem not_cutShort (hls : this.bytes ≠ [108, 115]) (hset : this.bytes ≠ [115, 101, 116]) :
    ¬CutShort cmd := by
  rintro ⟨-, hone | hcommand⟩
  · exact hls (bytes_eq_of_lineWords h hone)
  · exact hset ((isCommand_iff h _).mp hcommand.1)

/-- The words of `ls`. -/
theorem lsSplit_safe_iff (hls : this.bytes = [108, 115]) :
    ((∀ p ∈ (lsSplit next).pointers, cmd.Reaches p) ∧
      Receives (lsSplit next).received cmd.lineWords.tail) ↔
      ¬CutShort cmd := by
  rw [cutShort_iff_of_ls h hls]
  cases next with
  | none =>
    obtain ⟨hwords, hend⟩ := h.of_last
    refine iff_of_false ?_ (not_not_intro ⟨hend, by rw [hwords, hls]⟩)
    rintro ⟨hpointers, -⟩
    obtain ⟨s, hs, -⟩ := hpointers none List.mem_cons_self
    cases hs
  | some args =>
    obtain ⟨hwords, hsuffix, hend⟩ := h.of_more
    refine iff_of_true ⟨?_, ?_⟩ ?_
    · rintro p hp
      rw [List.mem_singleton.mp hp]
      exact ⟨args, rfl, .inl hsuffix⟩
    · rw [lsSplit, hwords]
      exact receives_cons.mpr ⟨(nextWord_nextword args).word_eq, receives_nil⟩
    · rintro ⟨hnot, hone⟩
      rw [hwords, List.cons.injEq] at hone
      exact hnot (hend.mpr (endsBlank_of_lineWords_eq_nil hone.2))

/-- The words of `set`. -/
theorem setSplit_safe_iff (hset : this.bytes = [115, 101, 116]) :
    ((∀ p ∈ (setSplit next).pointers, cmd.Reaches p) ∧
      Receives (setSplit next).received cmd.seen.lineWords.tail) ↔
      ¬CutShort cmd := by
  have hseen : cmd.seen = cmd.blankEquals := if_pos ((isCommand_iff h _).mpr hset)
  rw [cutShort_iff_of_set h hset, hseen]
  have hline := h.blankEquals fun w hw => by
    cases hw
    rw [hset]
    decide
  cases next with
  | none =>
    obtain ⟨hwords, hend⟩ := hline.of_last
    refine iff_of_false ?_ (not_not_intro ⟨hend, by rw [hwords, List.length_singleton]; decide⟩)
    rintro ⟨hpointers, -⟩
    obtain ⟨s, hs, -⟩ := hpointers none List.mem_cons_self
    cases hs
  | some args =>
    obtain ⟨-, hargs, -⟩ := h.of_more
    obtain ⟨hwords, hsuffix, hend⟩ := hline.of_more
    have hspec := nextWord_nextword args.blankEquals
    rw [setSplit]
    generalize nextword args.blankEquals = r at hspec
    obtain ⟨name, rest⟩ := r
    have hname := hspec.word_eq
    have hfirst : cmd.Reaches (some args) := ⟨args, rfl, .inl hargs⟩
    have hsecond : cmd.Reaches (some args.blankEquals) := ⟨_, rfl, .inr (hseen ▸ hsuffix)⟩
    cases name with
    | none =>
      refine iff_of_true ⟨?_, ?_⟩ ?_
      · exact List.forall_mem_cons.mpr ⟨hfirst, List.forall_mem_singleton.mpr hsecond⟩
      · rw [hwords]
        exact receives_cons.mpr ⟨hname, receives_nil⟩
      · rintro ⟨hnot, -⟩
        have hnone : args.blankEquals.lineWords = [] := List.head?_eq_none_iff.mp hname.symm
        exact hnot (hend.mpr (endsBlank_of_lineWords_eq_nil hnone))
    | some name =>
      cases rest with
      | none =>
        obtain ⟨hlast, hnot⟩ := hspec.of_last
        have hne : args.blankEquals.bytes ≠ [] := by
          intro hnil
          rw [CString.lineWords, hnil, words_nil] at hlast
          cases hlast
        refine iff_of_false ?_ (not_not_intro ⟨fun hblank => ?_, ?_⟩)
        · rintro ⟨hpointers, -⟩
          obtain ⟨s, hs, -⟩ := hpointers none (by simp)
          cases hs
        · exact (hend.mp hblank).elim hne hnot
        · rw [hwords, hlast]
          simp
      | some rest =>
        obtain ⟨hmore, hrest, hend'⟩ := hspec.of_more
        refine iff_of_true ⟨?_, ?_⟩ ?_
        · have hthird : cmd.Reaches (some rest) := ⟨rest, rfl, .inr (hseen ▸ hrest.trans hsuffix)⟩
          exact List.forall_mem_cons.mpr ⟨hfirst, List.forall_mem_cons.mpr
            ⟨hsecond, List.forall_mem_singleton.mpr hthird⟩⟩
        · rw [hwords, List.tail_cons, receives_cons, receives_cons]
          refine ⟨hname, ?_, receives_nil⟩
          rw [hmore, List.tail_cons]
          exact (nextWord_nextword rest).word_eq
        · rintro ⟨hnot, hlength⟩
          have hnone : rest.lineWords = [] := by
            rw [hwords, hmore, List.length_cons, List.length_cons] at hlength
            exact List.eq_nil_of_length_eq_zero (by omega)
          have hblank := hend'.mpr (endsBlank_of_lineWords_eq_nil hnone)
          exact hnot (hend.mpr (.inr hblank))

end Handlers

/-- A command line is split safely if and only if it does not end with the word behind which a
handler looks for another one. -/
theorem splitsSafely_iff (cmd : CString) : SplitsSafely cmd ↔ ¬CutShort cmd := by
  have hspec := nextWord_nextword cmd
  have hstart : cmd.Reaches (some cmd) := ⟨cmd, rfl, .inl (List.suffix_refl _)⟩
  have hpair : SplitsSafely cmd ↔ (∀ p ∈ (commandSplit cmd).pointers, cmd.Reaches p) ∧
      Receives (commandSplit cmd).received cmd.seen.lineWords :=
    ⟨fun h => ⟨h.pointers, h.received⟩, fun h => ⟨h.1, h.2⟩⟩
  rw [hpair, commandSplit]
  generalize nextword cmd = r at hspec
  obtain ⟨word, next⟩ := r
  dsimp only at hspec
  have hword := hspec.word_eq
  cases word with
  | none =>
    have hnone : cmd.lineWords = [] := List.head?_eq_none_iff.mp hword.symm
    have hcommand (name : List UInt8) : ¬cmd.IsCommand name := by
      rw [CString.IsCommand, hnone]
      simp
    rw [CutShort, show cmd.seen = cmd from if_neg (hcommand _), hnone]
    refine iff_of_true ⟨List.forall_mem_singleton.mpr hstart, receives_cons.mpr ⟨rfl, receives_nil⟩⟩ ?_
    rintro ⟨-, hone | hset⟩
    · cases hone
    · exact hcommand _ hset.1
  | some this =>
    have hidle : (∀ p ∈ ([] : List (Option CString)), cmd.Reaches p) ∧
        Receives [] cmd.seen.lineWords.tail :=
      ⟨fun p hp => absurd hp List.not_mem_nil, receives_nil⟩
    dsimp only
    rw [List.forall_mem_cons, and_iff_right hstart, receives_cons, Option.map_some,
      and_iff_right (seen_head? hspec)]
    by_cases hls : this.bytes = [108, 115]
    · rw [if_pos ((strncmp_eq_zero_iff (by decide) (by decide) this).mpr hls),
        seen_of_ne hspec (by rw [hls]; decide)]
      exact lsSplit_safe_iff hspec hls
    rw [if_neg fun hcmp => hls ((strncmp_eq_zero_iff (by decide) (by decide) this).mp hcmp)]
    by_cases hboot : this.bytes = [98, 111, 111, 116]
    · rw [if_pos ((strncmp_eq_zero_iff (by decide) (by decide) this).mpr hboot)]
      exact iff_of_true hidle (not_cutShort hspec hls (by rw [hboot]; decide))
    rw [if_neg fun hcmp => hboot ((strncmp_eq_zero_iff (by decide) (by decide) this).mp hcmp)]
    by_cases hset : this.bytes = [115, 101, 116]
    · rw [if_pos ((strncmp_eq_zero_iff (by decide) (by decide) this).mpr hset)]
      exact setSplit_safe_iff hspec hset
    · rw [if_neg fun hcmp => hset ((strncmp_eq_zero_iff (by decide) (by decide) this).mp hcmp)]
      exact iff_of_true hidle (not_cutShort hspec hls hset)

/-- `ls` of a null pointer ends in an access out of bounds. -/
theorem ls_of_null {args : Option CString} (hnull : none ∈ (lsSplit args).pointers) (fuel : ℕ)
    (m : Machine) :
    ls fuel m args = .error .outOfBounds := by
  cases args with
  | none => rfl
  | some args => simp [lsSplit] at hnull

/-- `set` of a null pointer ends in an access out of bounds. -/
theorem set_of_null {args : Option CString} (hnull : none ∈ (setSplit args).pointers) (m : Machine) :
    set m args = .error .outOfBounds := by
  cases args with
  | none => rfl
  | some args =>
    rw [setSplit] at hnull
    rw [set]
    generalize nextword args.blankEquals = r at hnull
    obtain ⟨_ | name, _ | rest⟩ := r
    · simp at hnull
    · simp at hnull
    · rfl
    · simp at hnull

/-- A null pointer among those that `nextword` is applied to is dereferenced. -/
theorem processCommand_of_null {cmd : CString} (hnull : none ∈ (commandSplit cmd).pointers) (fuel : ℕ)
    (m : Machine) : processCommand fuel cmd m = .error .outOfBounds := by
  rw [commandSplit] at hnull
  rw [processCommand]
  generalize nextword cmd = r at hnull
  obtain ⟨_ | this, next⟩ := r
  · simp at hnull
  · have htail := (List.mem_cons.mp hnull).resolve_left (by simp)
    dsimp only at htail ⊢
    split at htail
    · rename_i hls
      rw [if_pos hls]
      exact ls_of_null htail fuel m
    · rename_i hls
      rw [if_neg hls]
      split at htail
      · simp at htail
      · rename_i hboot
        rw [if_neg hboot]
        split at htail
        · rename_i hset
          rw [if_pos hset, set_of_null htail, error_bind]
        · simp at htail

/-- The line `ls`. -/
def bareLsLine : CString := ⟨[108, 115], by decide⟩

/-- The line `set root`. -/
def setRootLine : CString := ⟨[115, 101, 116, 32, 114, 111, 111, 116], by decide⟩

/-- A line that is just `ls`, and one that sets a name without a value, make the handler apply
`nextword` to a null pointer. -/
theorem not_splitsSafely : ¬SplitsSafely bareLsLine ∧ ¬SplitsSafely setRootLine := by
  have hnull : none ∈ (commandSplit bareLsLine).pointers ∧
      none ∈ (commandSplit setRootLine).pointers := by
    decide +kernel
  constructor
  · intro h
    obtain ⟨s, hs, -⟩ := h.pointers none hnull.1
    cases hs
  · intro h
    obtain ⟨s, hs, -⟩ := h.pointers none hnull.2
    cases hs

end Hobby386
