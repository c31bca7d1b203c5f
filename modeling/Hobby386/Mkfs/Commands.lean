import Hobby386.Mkfs.Migrate

/-!
# The commands of `mkfs`

The handlers behind the prompt of `mkfs`, from the command line on. Each splits its arguments off
itself, and each does it at another point of its work. What a command gets from outside is a parameter:
the answers of the host to `open` and `read`, and what lies in memory that has not been initialised.
-/

namespace Hobby386.Mkfs

/-! ## Words -/

/-- `isspace` of the host. -/
def isspace (c : UInt8) : Bool := c = 32 || 9 ≤ c && c ≤ 13

/-- The string from its first character that is not skipped on. -/
def skip (p : UInt8 → Bool) (s : CString) : CString where
  bytes := s.bytes.dropWhile p
  nulFree := fun h => s.nulFree ((List.dropWhile_sublist p).subset h)

/-- The string up to its first character that is not kept. -/
def keep (p : UInt8 → Bool) (s : CString) : CString where
  bytes := s.bytes.takeWhile p
  nulFree := fun h => s.nulFree ((List.takeWhile_sublist p).subset h)

/-- `nextword`: the next word and the text behind it. Without one nothing is stored. -/
def nextword (s : CString) : Option (CString × CString) :=
  let s := skip isspace s
  if s.bytes = [] then none else some (keep (fun c => !isspace c) s, skip (fun c => !isspace c) s)

/-- What `fgets` and the removal of the last character leave in the 64 bytes of the line buffer. -/
structure CommandLine where
  text : CString
  short : text.bytes.length < 63

/-- A word and the text behind it are no longer than the string. -/
theorem length_nextword {s word rest : CString} (h : nextword s = some (word, rest)) :
    word.bytes.length + rest.bytes.length ≤ s.bytes.length := by
  rw [nextword] at h
  split at h
  · cases h
  · cases h
    have hall := congrArg List.length
      (List.takeWhile_append_dropWhile (p := fun c => !isspace c) (l := (skip isspace s).bytes))
    rw [List.length_append] at hall
    have hskip : (skip isspace s).bytes.length ≤ s.bytes.length := (List.dropWhile_sublist _).length_le
    change (List.takeWhile _ _).length + (List.dropWhile _ _).length ≤ _
    omega

/-- The words of a line fit into buffers of the size of the line buffer. -/
theorem CommandLine.word_fits (line : CommandLine) {s word rest : CString}
    (hs : s.bytes.length ≤ line.text.bytes.length) (h : nextword s = some (word, rest)) :
    word.bytes.length + 1 < 64 ∧ rest.bytes.length ≤ line.text.bytes.length := by
  have hline := line.short
  have hword := length_nextword h
  omega

/-- `isdigit` of the host. -/
def isdigit (c : UInt8) : Bool := 48 ≤ c && c ≤ 57

/-- The number that a string of digits denotes. -/
def digitsValue (s : List UInt8) : ℕ := s.foldl (fun n c => 10 * n + (c.toNat - 48)) 0

/-- `strtol(s, &p, 10)` of a word, which has no white space in front, for a `long` of 64 bits. It
leaves a place in the string in `p`, never a null pointer. -/
def strtol (s : CString) : ℤ :=
  match s.bytes with
  | 45 :: ds => max (-9223372036854775808) (-(digitsValue (ds.takeWhile isdigit) : ℤ))
  | 43 :: ds => min 9223372036854775807 (digitsValue (ds.takeWhile isdigit))
  | ds => min 9223372036854775807 (digitsValue (ds.takeWhile isdigit))

/-- The buffer after `nextword` has stored a word in it. -/
def storeWord (buf : Memory) (word : CString) : Memory :=
  fun i => if i ≤ word.bytes.length then word.bytes.getD i 0 else buf i

/-! ## The surroundings -/

/-- What a `read` of one byte from the host can come to. -/
inductive HostRead
  | byte (c : UInt8)
  | eof
  | error
  deriving DecidableEq

/-- The answers of the host, and what uninitialised memory holds: `path` in `do_mkdir` and
`do_touch`, `buf` in `do_read`, and the variables that `do_ls` and `do_migrate` read into. -/
structure Host where
  opens : CString → Bool
  reads : ℕ → HostRead
  path : CString
  buf : Memory
  dirent : Memory
  stale : ℕ → UInt8

/-- What the variable `c` of `do_migrate` holds after the read with number `i`. -/
def Host.char (host : Host) (i : ℕ) : UInt8 :=
  match host.reads i with
  | .byte c => c
  | _ => host.stale i

/-- How a command ends: with a message, or with what it has done. -/
inductive Ending
  | usage (text : String)
  | missing (text : String)
  | openError
  | message (fmt : String) (path : CString)
  | listed (names : List (List UInt8))
  | copied (inum : ℕ) (reads : List HostRead)
  | retrieved (bytes : List UInt8)
  | shown (output : List UInt8)
  | written
  | made
  | blank
  | quit

/-! ## The handlers

The result is `none` when the fuel is spent before the end of a loop. -/

/-- The loop of `do_ls`: the names it prints. -/
def lsEntries (host : Host) (inum : ℕ) : (fuel off : ℕ) → Fs →
    Except Fault (Option (List (List UInt8) × Fs))
  | 0, _, _ => .ok none
  | fuel + 1, off, fs => do
    let r ← fsRead fs inum host.dirent direntSize off
    if r.1 = 0 then .ok (some ([], r.2.2))
    else
      let d := Dirent.ofBytes r.2.1 0
      let rest ← lsEntries host inum fuel (u32 (off + direntSize)) r.2.2
      .ok (rest.map fun t => (if d.inum ≠ 0 then cstr d.name :: t.1 else t.1, t.2))

/-- `do_ls`. -/
def doLs (host : Host) (fuel : ℕ) (fs : Fs) (s : CString) : Except Fault (Option (Ending × Fs)) :=
  match nextword s with
  | none => .ok (some (.usage "usage: ls <path>", fs))
  | some (path, _) => do
    let l ← fsLookup fs (some path)
    if l.1 = nullInum then .ok (some (.message "ls: %s: No such file or directory\n" path, l.2))
    else
      let r ← lsEntries host l.1 fuel 0 l.2
      .ok (r.map fun t => (.listed t.1, t.2))

/-- The loop of `do_migrate`, from the read with number `i` on: the reads before the end of the
file. A read that fails returns -1, which is not 0. -/
def migrateLoop (host : Host) (inum : ℕ) :
    (fuel i off : ℕ) → Fs → Except Fault (Option (List HostRead × Fs))
  | 0, _, _, _ => .ok none
  | fuel + 1, i, off, fs =>
    if host.reads i = .eof then .ok (some ([], fs))
    else do
      let r ← fsWrite fs inum (.ofList [host.char i]) 1 off
      if r.1 ≠ 1 then .error .panic
      else
        let rest ← migrateLoop host inum fuel (i + 1) (u32 (off + 1)) r.2
        .ok (rest.map fun t => (host.reads i :: t.1, t.2))

/-- The part of `do_migrate` behind its arguments. -/
def migratePaths (host : Host) (fuel : ℕ) (fs : Fs) (src dst : CString) :
    Except Fault (Option (Ending × Fs)) := do
  let l ← fsLookup fs (some dst)
  if l.1 ≠ nullInum then .ok (some (.message "migrate: %s: File exists\n" dst, l.2))
  else
    let m ← fsMknod l.2 (some dst) tReg
    if m.1 = nullInum then .error .panic
    else if host.opens src = false then .ok (some (.openError, m.2))
    else
      let r ← migrateLoop host m.1 fuel 0 0 m.2
      .ok (r.map fun t => (.copied m.1 t.1, t.2))

/-- `do_migrate`. -/
def doMigrate (host : Host) (fuel : ℕ) (fs : Fs) (s : CString) : Except Fault (Option (Ending × Fs)) :=
  match nextword s with
  | none => .ok (some (.usage "usage: migrate <host_path> <path>\n", fs))
  | some (src, s) =>
    match nextword s with
    | none => .ok (some (.usage "usage: migrate <host_path> <path>\n", fs))
    | some (dst, _) => migratePaths host fuel fs src dst

/-- `do_retrieve`. -/
def doRetrieve (host : Host) (fuel : ℕ) (fs : Fs) (s : CString) : Except Fault (Option (Ending × Fs)) :=
  match nextword s with
  | none => .ok (some (.usage "usage: retrieve <path> <host_path>\n", fs))
  | some (src, s) =>
    match nextword s with
    | none => .ok (some (.usage "usage: retrieve <path> <host_path>\n", fs))
    | some (dst, _) => do
      let r ← retrieve fuel fs src (host.opens dst)
      match r.1 with
      | .notFound => .ok (some (.message "retrieve: %s: No such file or directory\n" src, r.2))
      | .notOpened => .ok (some (.openError, r.2))
      | .unfinished => .ok none
      | .copied bytes => .ok (some (.retrieved bytes, r.2))

/-- The characters that `do_read` prints for a buffer: `%c` keeps the low byte of the replacement
character. -/
def shownBytes (buf : Memory) (n : ℕ) : List UInt8 :=
  (List.range n).flatMap fun i => if 32 ≤ buf i ∧ buf i ≤ 126 then [buf i] else [0xfd, 10]

/-- `do_read`, which writes with `w` set. The size and the offset go through one buffer of 64 bytes,
and what is left of them in it is what is written. -/
def doRead (w : Bool) (host : Host) (fs : Fs) (s : CString) : Except Fault (Option (Ending × Fs)) :=
  match nextword s with
  | none => .ok (some (.usage "usage: read <path> <size> <offset>\n", fs))
  | some (path, s) =>
    match nextword s with
    | none => .ok (some (.missing "read: missing size\n", fs))
    | some (size, s) =>
      let sz := int32 (bits32 (strtol size))
      match nextword s with
      | none => .ok (some (.missing "read: missing offset\n", fs))
      | some (offset, _) => do
        let buf := storeWord (storeWord host.buf size) offset
        let off := bits32 (strtol offset)
        let l ← fsLookup fs (some path)
        if l.1 = nullInum then .ok (some (.message "read: %s: No such file or directory\n" path, l.2))
        else if w then
          let r ← fsWrite l.2 l.1 buf (min 64 sz) off
          if r.1 ≠ min 64 sz then .error .panic else .ok (some (.written, r.2))
        else
          let r ← fsRead l.2 l.1 buf (min 64 sz) off
          if 64 < r.1 then .error .outOfBounds
            else .ok (some (.shown (shownBytes r.2.1 r.1.toNat), r.2.2))

/-- `do_mkdir` and `do_touch`, which go on behind the usage text. -/
def makeNode (usage : String) (type : ℕ) (host : Host) (fs : Fs) (s : CString) :
    Except Fault (Option (Ending × Fs)) :=
  match nextword s with
  | none => do
    let m ← fsMknod fs (some host.path) type
    .ok (some (.usage usage, m.2))
  | some (path, _) => do
    let m ← fsMknod fs (some path) type
    .ok (some (.made, m.2))

/-- `do_mkdir`. -/
def doMkdir : Host → Fs → CString → Except Fault (Option (Ending × Fs)) :=
  makeNode "usage: mkdir <path>\n" tDir

/-- `do_touch`. -/
def doTouch : Host → Fs → CString → Except Fault (Option (Ending × Fs)) :=
  makeNode "usage: touch <path>\n" tReg

/-! ## The prompt -/

/-- The commands of the prompt. -/
inductive Handler
  | ls
  | migrate
  | retrieve
  | read
  | write
  | mkdir
  | touch
  | quit
  | invalid
  deriving DecidableEq

/-- `!strncmp(name, w, n)` for the `n` characters of a name. -/
def startsWith (w : CString) (name : List UInt8) : Bool := name.isPrefixOf w.bytes

/-- The handler for the first word of a line, which needs to start with the name of a command only. -/
def handler (w : CString) : Handler :=
  if startsWith w [108, 115] then .ls
  else if startsWith w [109, 105, 103, 114, 97, 116, 101] then .migrate
  else if startsWith w [114, 101, 116, 114, 105, 101, 118, 101] then .retrieve
  else if startsWith w [114, 101, 97, 100] then .read
  else if startsWith w [119, 114, 105, 116, 101] then .write
  else if startsWith w [109, 107, 100, 105, 114] then .mkdir
  else if startsWith w [116, 111, 117, 99, 104] then .touch
  else if startsWith w [113, 117, 105, 116] then .quit
  else .invalid

/-- One turn of the loop of `main`. -/
def command (host : Host) (fuel : ℕ) (fs : Fs) (line : CommandLine) :
    Except Fault (Option (Ending × Fs)) :=
  match nextword line.text with
  | none => .ok (some (.blank, fs))
  | some (w, p) =>
    match handler w with
    | .ls => doLs host fuel fs p
    | .migrate => doMigrate host fuel fs p
    | .retrieve => doRetrieve host fuel fs p
    | .read => doRead false host fs p
    | .write => doRead true host fs p
    | .mkdir => doMkdir host fs p
    | .touch => doTouch host fs p
    | .quit => .ok (some (.quit, fs))
    | .invalid => .ok (some (.message "mkfs: %s: invalid command\n" w, fs))

end Hobby386.Mkfs
