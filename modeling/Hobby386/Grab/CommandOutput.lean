import Hobby386.Grab.Rows
import Hobby386.Grab.VarArgs

/-!
# The output of the commands

The commands print with `printf`. What a call prints depends on its format string and on the
arguments that its caller has pushed. The output of a command goes through the screen, and it ends
with the end of a row.
-/

namespace Hobby386

open LittleEndian

/-! ## Calls of printf -/

/-- The memory of a call of `printf`, with its format string at address 0. From 4 on each argument
has a slot of four bytes, and the strings lie further up. -/
def argMemory (args : List PrintArg) : Memory := fun a =>
  if a < 4096 then
    match args[(a - 4) / 4]? with
    | some (.num n) => byte n ((a - 4) % 4)
    | some (.str _) => byte (4096 * ((a - 4) / 4 + 1)) ((a - 4) % 4)
    | none => 0
  else
    match args[a / 4096 - 1]? with
    | some (.str s) => s.getD (a % 4096) 0
    | _ => 0

/-- The characters that a call of `printf` passes to `putchar`. -/
def rendered (call : String × List PrintArg) : Except Fault (List UInt8) := do
  let st ← printf (argMemory call.2) 0 [] 0 call.1.toUTF8.toList
  .ok st.out

/-- The calls of `printf` on the screen. -/
def printCalls : Vga → List (String × List PrintArg) → Except Fault Vga
  | v, [] => .ok v
  | v, call :: calls => do
    let s ← rendered call
    let v ← putchars v s
    printCalls v calls

/-- The parts of a format string without widths. -/
def piecesOf : List UInt8 → Option (List Piece)
  | [] => some []
  | c :: s =>
    if c = 37 then
      match s with
      | [] => none
      | d :: s => do
        let cv ← [Conv.c, .s, .d, .u, .x, .p].find? fun cv => cv.char = d
        let ps ← piecesOf s
        some (.conv [] cv :: ps)
    else if c = 0 then none
    else do
      let ps ← piecesOf s
      some (.lit c :: ps)

/-- The format string consists of ordinary characters and conversions without a width. -/
def Printable (fmt : String) : Prop := (piecesOf fmt.toUTF8.toList).isSome = true

/-- The format string ends with the end of a row. -/
def EndsRow (fmt : String) : Prop := fmt.toUTF8.toList.getLast? = some 10

instance (fmt : String) : Decidable (Printable fmt) := inferInstanceAs (Decidable (_ = _))

instance (fmt : String) : Decidable (EndsRow fmt) := inferInstanceAs (Decidable (_ = _))

/-- The calls print nothing, or the last one of them ends a row. -/
structure Output (calls : List (String × List PrintArg)) : Prop where
  printable : ∀ call ∈ calls, Printable call.1
  endsRow : ∀ call, calls.getLast? = some call → EndsRow call.1

/-! ## What a call prints -/

section Rendered

variable {s : List UInt8} {ps : List Piece} {mem : Memory} {call : String × List PrintArg}

/-- The parts make up the format string. -/
theorem piecesOf_some (h : piecesOf s = some ps) : (∀ p ∈ ps, p.Proper) ∧
    ps.flatMap Piece.format = s := by
  induction s using piecesOf.induct generalizing ps with
  | case1 =>
    cases h
    exact ⟨fun p hp => absurd hp List.not_mem_nil, rfl⟩
  | case2 =>
    cases h
  | case3 d s ih =>
    rw [piecesOf, if_pos rfl] at h
    simp only [Option.bind_eq_bind, Option.bind_eq_some_iff, Option.some.injEq] at h
    obtain ⟨cv, hcv, ps', hrest, rfl⟩ := h
    obtain ⟨hproper, hformat⟩ := ih hrest
    have hchar : cv.char = d := by simpa using List.find?_some hcv
    refine ⟨List.forall_mem_cons.mpr ⟨⟨fun c hc => absurd hc List.not_mem_nil, Nat.zero_le 9⟩,
      hproper⟩, ?_⟩
    rw [List.flatMap_cons, hformat, Piece.format, hchar]
    rfl
  | case4 =>
    rw [piecesOf.eq_def] at h
    cases h
  | case5 c s hpercent hzero ih =>
    rw [piecesOf.eq_def] at h
    dsimp only at h
    rw [if_neg hpercent, if_neg hzero] at h
    simp only [Option.bind_eq_bind, Option.bind_eq_some_iff, Option.some.injEq] at h
    obtain ⟨ps', hrest, rfl⟩ := h
    obtain ⟨hproper, hformat⟩ := ih hrest
    refine ⟨List.forall_mem_cons.mpr ⟨⟨hzero, hpercent⟩, hproper⟩, ?_⟩
    rw [List.flatMap_cons, hformat, Piece.format]
    rfl

/-- A character at the end of the format string is printed last. -/
theorem outputFrom_getLast (hlast : (ps.flatMap Piece.format).getLast? = some 10) (ap : ℕ) :
    (outputFrom mem ap ps).getLast? = some 10 := by
  induction ps generalizing ap with
  | nil => cases hlast
  | cons p ps ih =>
    rw [List.flatMap_cons] at hlast
    rcases List.eq_nil_or_concat' (ps.flatMap Piece.format) with hnil | ⟨init, last, hrest⟩
    · -- Nothing is behind the part, which ends with the character.
      cases p with
      | lit c =>
        cases ps with
        | nil => simpa [Piece.format, outputFrom] using hlast
        | cons p ps =>
          cases p <;> simp [Piece.format] at hnil
      | conv ws cv =>
        rw [hnil, List.append_nil, Piece.format, ← List.cons_append, List.getLast?_concat] at hlast
        cases cv <;> cases hlast
    · rw [hrest, ← List.append_assoc, List.getLast?_concat, ← List.getLast?_concat (l := init),
        ← hrest] at hlast
      cases p with
      | lit c => rw [outputFrom, List.getLast?_cons, ih hlast, Option.getD_some]
      | conv ws cv => rw [outputFrom, List.getLast?_append, ih hlast, Option.some_or]

/-- A printable call prints its ordinary characters and its conversions. -/
theorem rendered_returns (h : Printable call.1) : ∃ s, rendered call = .ok s ∧
    (EndsRow call.1 → s.getLast? = some 10) := by
  obtain ⟨ps, hps⟩ := Option.isSome_iff_exists.mp h
  obtain ⟨hproper, hformat⟩ := piecesOf_some hps
  obtain ⟨st, hrun, -, hout⟩ : ∃ st, Printf.run (argMemory call.2) (ps.flatMap Piece.format)
      ⟨.regular, [], 0, 0 + 4, [], []⟩ = .ok st ∧ _ ∧ _ := run_pieces hproper _ rfl
  refine ⟨st.out, ?_, fun hend => ?_⟩
  · rw [rendered, printf, ← hformat, hrun, ok_bind]
  · rw [EndsRow, ← hformat] at hend
    rw [hout, List.nil_append]
    exact outputFrom_getLast hend _

/-- The line of a partition in the list of the drives, and of a name in a directory. -/
example : rendered ("(hd%d,msdos%d) ", [.num 1, .num 0]) = .ok "(hd1,msdos0) ".toUTF8.toList ∧
    rendered ("%s\n", [.str [107, 50]]) = .ok [107, 50, 10] := by
  decide +kernel

end Rendered

/-! ## The screen behind the output -/

/-- The cursor is on the screen, at the start of a row. -/
def Vga.AtRow (v : Vga) : Prop := (vgaGetCursor v).toNat < screenCells ∧ (vgaGetCursor v).toNat % 80 = 0

section Screen

variable {v : Vga} {calls calls' : List (String × List PrintArg)}

/-- The end of a row leads to the start of one. -/
theorem putchar_newline_atRow (h : (vgaGetCursor v).toNat < screenCells) :
    ∃ v', putchar v 10 = .ok v' ∧ v'.AtRow := by
  have hnext : (UInt16.ofNat ((vgaGetCursor v).toNat + 80 - (vgaGetCursor v).toNat % 80)).toNat =
      (vgaGetCursor v).toNat + 80 - (vgaGetCursor v).toNat % 80 := toNat_ofNat_of_lt (by omega)
  rw [putchar, putcharIn, if_pos (.inl rfl)]
  rcases lt_or_ge ((vgaGetCursor v).toNat + 80 - (vgaGetCursor v).toNat % 80) screenCells with hlt | hge
  · refine ⟨_, scrollTo_of_lt (hnext.trans_lt hlt), ?_⟩
    rw [Vga.AtRow, vgaGetCursor_moveTo, hnext]
    exact ⟨hlt, by omega⟩
  · obtain ⟨v', hscroll, hcursor⟩ := scrollTo_of_ge (v := v) (hge.trans_eq hnext.symm)
    refine ⟨v', hscroll, ?_⟩
    rw [Vga.AtRow, hcursor]
    decide

/-- So does a text with the end of a row at its end. -/
theorem putchars_atRow (h : (vgaGetCursor v).toNat < screenCells) {s : List UInt8}
    (hend : s.getLast? = some 10) :
    ∃ v', putchars v s = .ok v' ∧ v'.AtRow := by
  obtain ⟨init, rfl⟩ := List.getLast?_eq_some_iff.mp hend
  obtain ⟨v₁, hinit, hcursor⟩ := putchars_returns h init
  obtain ⟨v', hlast, hrow⟩ := putchar_newline_atRow hcursor
  refine ⟨v', ?_, hrow⟩
  rw [putchars_append, hinit, ok_bind, putchars_cons, hlast]
  rfl

/-- Two lists of calls are printed one after the other. -/
theorem printCalls_append (v : Vga) (calls calls' : List (String × List PrintArg)) :
    printCalls v (calls ++ calls') = printCalls v calls >>= fun v => printCalls v calls' := by
  induction calls generalizing v with
  | nil => rfl
  | cons call calls ih =>
    simp only [List.cons_append, printCalls, ih, bind_assoc]

/-- Printable calls leave the cursor on the screen. -/
theorem printCalls_returns (h : (vgaGetCursor v).toNat < screenCells)
    (hcalls : ∀ call ∈ calls, Printable call.1) :
    ∃ v', printCalls v calls = .ok v' ∧ (vgaGetCursor v').toNat < screenCells := by
  induction calls generalizing v with
  | nil => exact ⟨v, rfl, h⟩
  | cons call calls ih =>
    rw [List.forall_mem_cons] at hcalls
    obtain ⟨s, hrendered, -⟩ := rendered_returns hcalls.1
    obtain ⟨v₁, hprint, hcursor⟩ := putchars_returns h s
    rw [printCalls, hrendered, ok_bind, hprint, ok_bind]
    exact ih hcursor hcalls.2

/-- The output of a command leads from the start of a row to the start of one. -/
theorem Output.atRow (h : Output calls) (hrow : v.AtRow) : ∃ v', printCalls v calls = .ok v' ∧
    v'.AtRow := by
  rcases List.eq_nil_or_concat' calls with rfl | ⟨init, last, rfl⟩
  · exact ⟨v, rfl, hrow⟩
  · obtain ⟨hinit, hlast⟩ := List.forall_mem_append.mp h.printable
    obtain ⟨v₁, hprint, hcursor⟩ := printCalls_returns hrow.1 hinit
    obtain ⟨s, hrendered, hend⟩ := rendered_returns (hlast last (.head _))
    obtain ⟨v', hputs, hrow'⟩ := putchars_atRow hcursor (hend (h.endsRow last List.getLast?_concat))
    refine ⟨v', ?_, hrow'⟩
    rw [printCalls_append, hprint, ok_bind, printCalls, hrendered, ok_bind, hputs]
    rfl

/-- No output. -/
theorem output_nil : Output [] := ⟨fun call h => absurd h List.not_mem_nil, fun call h => by cases h⟩

/-- One call that ends a row. -/
theorem output_singleton {call : String × List PrintArg} (h : Printable call.1 ∧ EndsRow call.1) :
    Output [call] := by
  refine ⟨List.forall_mem_singleton.mpr h.1, fun call' hlast => ?_⟩
  cases hlast
  exact h.2

/-- Output behind other calls. -/
theorem Output.append (hcalls : ∀ call ∈ calls, Printable call.1) (h : Output calls')
    (hnil : calls' = [] → Output calls) : Output (calls ++ calls') := by
  refine ⟨List.forall_mem_append.mpr ⟨hcalls, h.printable⟩, fun call hlast => ?_⟩
  rw [List.getLast?_append] at hlast
  cases hlater : calls'.getLast? with
  | none =>
    rw [hlater, Option.none_or] at hlast
    exact (hnil (List.getLast?_eq_none_iff.mp hlater)).endsRow call hlast
  | some call' =>
    rw [hlater, Option.some_or] at hlast
    cases hlast
    exact h.endsRow _ hlater

end Screen

/-! ## The commands -/

/-- Between the two machines a command has printed its output. -/
def Machine.Prints (m m' : Machine) : Prop := ∃ calls, m'.printed = m.printed ++ calls ∧ Output calls

section Commands

variable {m m' m₁ : Machine} {fuel : ℕ}

/-- Nothing is printed. -/
theorem Machine.Prints.silent (h : m'.printed = m.printed) : m.Prints m' :=
  ⟨[], by rw [h, List.append_nil], output_nil⟩

/-- One row is printed. -/
theorem Machine.Prints.line (h : m₁.printed = m.printed) (fmt : String) (args : List PrintArg)
    (hfmt : Printable fmt ∧ EndsRow fmt) : m.Prints (m₁.printf fmt args) :=
  ⟨[(fmt, args)], by rw [Machine.printf, h], output_singleton hfmt⟩

/-- The outputs of two steps, one after the other. -/
theorem Machine.Prints.trans (h : m.Prints m₁) (h' : m₁.Prints m') : m.Prints m' := by
  obtain ⟨calls, hprinted, hout⟩ := h
  obtain ⟨calls', hprinted', hout'⟩ := h'
  refine ⟨calls ++ calls', by rw [hprinted', hprinted, List.append_assoc],
    hout'.append hout.printable fun _ => hout⟩

/-- The list of a drive consists of printable calls. -/
theorem listDrive_prints (m : Machine) (x : ℕ) :
    ∃ calls, (listDrive m x).printed = m.printed ++ calls ∧ ∀ call ∈ calls, Printable call.1 := by
  have hpartitions (partitions : ℕ → Partition) (ys : List ℕ) (m : Machine) :
      ∃ calls, (ys.foldl (fun m y => if (partitions y).nsectors = 0 then m
        else m.printf "(hd%d,msdos%d) " [.num x, .num y]) m).printed = m.printed ++ calls ∧
          ∀ call ∈ calls, Printable call.1 := by
    induction ys generalizing m with
    | nil => exact ⟨[], (List.append_nil _).symm, fun call h => absurd h List.not_mem_nil⟩
    | cons y ys ih =>
      rw [List.foldl_cons]
      split
      · exact ih m
      · obtain ⟨calls, hprinted, hcalls⟩ := ih (m.printf "(hd%d,msdos%d) " [.num x, .num y])
        refine ⟨("(hd%d,msdos%d) ", [.num x, .num y]) :: calls, ?_, ?_⟩
        · rw [hprinted, Machine.printf, List.append_assoc, List.singleton_append]
        · exact List.forall_mem_cons.mpr ⟨show Printable "(hd%d,msdos%d) " by decide +kernel, hcalls⟩
  rw [listDrive, Machine.ideSel]
  by_cases hexist : (m.drives x).exist = false
  · rw [if_pos hexist]
    exact ⟨[], (List.append_nil _).symm, fun call h => absurd h List.not_mem_nil⟩
  · rw [if_neg hexist]
    dsimp only
    split
    · exact ⟨[_], rfl, List.forall_mem_singleton.mpr (show Printable "(hd%d,?) " by decide +kernel)⟩
    · exact hpartitions _ (List.range 4) _

/-- `ide_list` ends the row of its list. -/
theorem ideList_prints (m : Machine) : m.Prints (ideList m) := by
  have hdrives (xs : List ℕ) (m : Machine) :
      ∃ calls, (xs.foldl listDrive m).printed = m.printed ++ calls ∧
      ∀ call ∈ calls, Printable call.1 := by
    induction xs generalizing m with
    | nil => exact ⟨[], (List.append_nil _).symm, fun call h => absurd h List.not_mem_nil⟩
    | cons x xs ih =>
      obtain ⟨first, hfirst, hcalls⟩ := listDrive_prints m x
      obtain ⟨calls, hprinted, hrest⟩ := ih (listDrive m x)
      exact ⟨first ++ calls, by rw [List.foldl_cons, hprinted, hfirst, List.append_assoc],
        List.forall_mem_append.mpr ⟨hcalls, hrest⟩⟩
  obtain ⟨calls, hprinted, hcalls⟩ := hdrives (List.range 4) m
  refine ⟨calls ++ [("\n", [])], by rw [ideList, Machine.printf, hprinted, List.append_assoc], ?_⟩
  exact (output_singleton (by decide +kernel)).append hcalls fun h => by cases h

/-- `getXY` prints why it fails. -/
theorem getXY_prints (m : Machine) (s caller : List UInt8) : m.Prints (getXY m s caller).2 := by
  have hsel (x : ℕ) : (m.ideSel x).2.printed = m.printed := by
    rw [Machine.ideSel]
    split <;> rfl
  rw [getXY]
  split
  · exact .line rfl _ _ (by decide +kernel)
  dsimp only
  split
  · exact .line rfl _ _ (by decide +kernel)
  split
  · exact .line rfl _ _ (by decide +kernel)
  have hsame := hsel (digit s 3)
  generalize m.ideSel (digit s 3) = sel at hsame
  obtain ⟨_ | _, m₁⟩ := sel
  · exact .line hsame _ _ (by decide +kernel)
  dsimp only at hsame ⊢
  split
  · exact .line hsame _ _ (by decide +kernel)
  split
  · exact .line hsame _ _ (by decide +kernel)
  rename_i partitions _ _
  have hmount : (m₁.setFs (fsInit m₁.fs (partitions (digit s 5))).2).printed = m.printed := by
    rw [← hsame, fsInit]
    split <;> rfl
  split
  · exact .line hmount _ _ (by decide +kernel)
  · exact .silent hmount

/-- The list of a directory prints a row for each name. -/
theorem listEntries_prints {inum off : ℕ} {r : Bool × Fs} (h : listEntries inum fuel off m.fs = .ok r) :
    m.Prints (m.setFs r.2) := by
  suffices hrows : ∀ (fuel off : ℕ) (fs : Fs) (r : Bool × Fs), listEntries inum fuel off fs = .ok r →
      ∃ calls, r.2.printed = fs.printed ++ calls ∧ Output calls from hrows fuel off m.fs r h
  intro fuel
  induction fuel with
  | zero =>
    rintro off fs r h
    cases h
    exact ⟨[], (List.append_nil _).symm, output_nil⟩
  | succ fuel ih =>
    intro off fs r h
    rw [listEntries, bind_eq_ok] at h
    obtain ⟨⟨n, d, fs₁⟩, hread, h⟩ := h
    split at h
    · cases h
    rename_i hpos
    obtain rfl : fs₁ = fs := fsRead_keeps hread fun hret => hpos (by rw [hret]; decide)
    split at h
    · cases h
      exact ⟨[], (List.append_nil _).symm, output_nil⟩
    · obtain ⟨calls, hprinted, hout⟩ := ih _ _ _ h
      split at hprinted
      · exact ⟨calls, hprinted, hout⟩
      · have hline : Output [("%s\n", [PrintArg.str (cstr (Dirent.ofBytes d 0).name)])] :=
          output_singleton (show Printable "%s\n" ∧ EndsRow "%s\n" by decide +kernel)
        refine ⟨_ :: calls, by
          rw [hprinted, Fs.printf, List.append_assoc, List.singleton_append], ?_⟩
        exact hout.append hline.printable fun _ => hline

/-- `ls` prints rows. -/
theorem ls_prints {args : Option CString} {o : Outcome} (h : ls fuel m args = .ok (o, m')) :
    m.Prints m' := by
  cases args with
  | none => cases h
  | some args =>
    rw [ls] at h
    dsimp only at h
    split at h
    · cases h
      exact ideList_prints m
    rename_i path _
    have hname := getXY_prints m path.bytes [108, 115]
    generalize getXY m path.bytes [108, 115] = r at h hname
    obtain ⟨_ | xy, m₁⟩ := r
    · cases h
      exact hname
    · dsimp only at h
      rw [bind_eq_ok] at h
      obtain ⟨⟨inum, fs⟩, hlookup, h⟩ := h
      obtain rfl : fs = m₁.fs := fsLookup_keeps hlookup
      refine hname.trans ?_
      split at h
      · cases h
        exact .line rfl _ _ (by decide +kernel)
      · rw [bind_eq_ok] at h
        obtain ⟨l, hlist, h⟩ := h
        cases h
        exact listEntries_prints (m := m₁.setFs m₁.fs) hlist

/-- `set` prints a row when it fails. -/
theorem set_prints {args : Option CString} (h : set m args = .ok m') : m.Prints m' := by
  cases args with
  | none => cases h
  | some args =>
    rw [set] at h
    split at h
    · cases h
      exact .line rfl _ _ (by decide +kernel)
    · cases h
    split at h
    · cases h
      exact .line rfl _ _ (by decide +kernel)
    rename_i value _
    split at h
    swap
    · cases h
      exact .line rfl _ _ (by decide +kernel)
    rw [setValue] at h
    have hname := getXY_prints m value.bytes [115, 101, 116]
    generalize getXY m value.bytes [115, 101, 116] = r at h hname
    obtain ⟨_ | ⟨x, y⟩, m₁⟩ := r
    · cases h
      exact hname
    · refine hname.trans ?_
      dsimp only at h
      rw [setRoot, bind_eq_ok] at h
      obtain ⟨⟨inum, fs⟩, hlookup, h⟩ := h
      obtain rfl : fs = m₁.fs := fsLookup_keeps hlookup
      dsimp only at h
      split at h
      · cases h
        exact .line rfl _ _ (by decide +kernel)
      split at h
      · cases h
      rename_i di fs hdi
      have hkeeps : fs = m₁.fs := (readInode_some hdi).trans (Machine.fs_setFs m₁ m₁.fs)
      subst hkeeps
      split at h
      · cases h
        exact .line rfl _ _ (by decide +kernel)
      split at h
      · cases h
        exact .line rfl _ _ (by decide +kernel)
      · cases h
        exact .silent rfl

/-- What a command has printed when it returns or loads a system is its output. -/
theorem processCommand_prints {cmd : CString} {o : Outcome}
    (h : processCommand fuel cmd m = .ok (o, m')) :
    m.Prints m' := by
  rw [processCommand] at h
  split at h
  · cases h
    exact .silent rfl
  split at h
  · exact ls_prints h
  split at h
  · rw [boot] at h
    split at h
    · cases h
      exact .line rfl _ _ (by decide +kernel)
    · cases h
      exact .silent rfl
  split at h
  · rw [bind_eq_ok] at h
    obtain ⟨m₁, hset, hret⟩ := h
    cases hret
    exact set_prints hset
  · cases h
    exact .silent rfl

end Commands

end Hobby386
