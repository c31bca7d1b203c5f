import Hobby386.Fs.Path
import Hobby386.Fs.Traverse

/-!
# Directories

`dir_lookup`, `fs_lookup` and `fs_mknod`. A directory is a file that holds an array of
`struct dirent`.
-/

namespace Hobby386

/-- The loop of `dir_lookup` over the next `n` entries from offset `off` on. -/
def dirLookupFrom (inum : ℕ) (name : List UInt8) : (off n : ℕ) → Fs → Except Fault (ℕ × Fs)
  | _, 0, fs => .ok (nullInum, fs)
  | off, n + 1, fs => do
    let r ← fsRead fs inum (fun _ => 0) direntSize off
    if r.1 ≠ direntSize then .error .panic
    else
      let de := Dirent.ofBytes r.2.1 0
      if strcmp name de.name = 0 then .ok (de.inum, r.2.2)
      else dirLookupFrom inum name (u32 (off + direntSize)) n r.2.2

/-- `dir_lookup`, which is never asked for the offset of the entry. -/
def dirLookup (fs : Fs) (inum : ℕ) (name : List UInt8) : Except Fault (ℕ × Fs) :=
  match readInode fs inum with
  | (none, _) => .error .panic
  | (some di, fs) =>
    if di.type ≠ tDir then .ok (nullInum, fs)
    else dirLookupFrom inum name 0 (di.size / direntSize) fs

/-- The loop of `fs_lookup`. The name buffer has `MAXNAME` bytes, and its terminator is stored
behind the copied name. -/
def lookupNames (inum : ℕ) : (path : List UInt8) → Fs → Except Fault (ℕ × Fs)
  | [], fs => .ok (inum, fs)
  | c :: path, fs =>
    match _ : copyName 0 (c :: path) with
    | none => .ok (nullInum, fs)
    | some (name, rest) =>
      if maxName ≤ name.length then .error .outOfBounds
      else do
        let r ← dirLookup fs inum name
        if r.1 = nullInum then .ok (nullInum, r.2)
        else lookupNames r.1 (rest.dropWhile (· = slash)) r.2
termination_by path => path.length
decreasing_by
  rename_i hcopy _ _
  obtain ⟨-, rfl⟩ := Prod.mk.inj (copyName_eq_some hcopy)
  exact length_rest_lt

/-- `fs_lookup`. -/
def fsLookup (fs : Fs) (path : Option CString) : Except Fault (ℕ × Fs) :=
  match path with
  | none => .ok (nullInum, fs)
  | some path =>
    if maxPath - 1 < min path.bytes.length maxPath then .ok (nullInum, fs)
    else
      match path.bytes with
      | [] => .ok (nullInum, fs)
      | c :: tail => if c ≠ slash then .ok (nullInum, fs) else lookupNames rootInum tail fs

/-- What `uint16_t` keeps of a number. -/
def u16 (n : ℕ) : ℕ := n % 65536

/-- The end of `fs_mknod`: link inode `m` to the directory `n` of the given size under a name. -/
def linkInode (fs : Fs) (m n : ℕ) (di : Dinode) (name parent : CString) : Except Fault (ℕ × Fs) := do
  let de : Dirent := ⟨m, strncpy name.bytes maxName⟩
  let r ← fsWrite fs n de.bytes direntSize di.size
  if r.1 ≠ direntSize then
    let f ← freeInode r.2 m
    .ok (nullInum, f.2.printf "fs_mknod: %s: dir write failed\n" [.str parent.bytes])
  else
    let o := readInode r.2 m
    let di := o.1.getD di
    .ok (m, (writeInode o.2 m { di with linkcnt := u16 (di.linkcnt + 1) }).2)

/-- `fs_mknod`. -/
def fsMknod (fs : Fs) (path : Option CString) (type : ℕ) : Except Fault (ℕ × Fs) := do
  match ← getname path with
  | none => .ok (nullInum, fs.printf "fs_mknod: %s: Invalid path\n" [])
  | some (name, parent) =>
    let r ← fsLookup fs (some parent)
    let fs := r.2
    if r.1 = nullInum then
      .ok (nullInum, fs.printf "fs_mknod: %s: No such file or directory\n" [.str parent.bytes])
    else
      match readInode fs r.1 with
      | (none, _) => .error .panic
      | (some di, fs) =>
        if di.type ≠ tDir then
          .ok (nullInum, fs.printf "fs_mknod: %s: Not a directory\n" [.str parent.bytes])
        else
          let k ← dirLookup fs r.1 name.bytes
          let fs := k.2
          if k.1 ≠ 0 then .ok (nullInum, fs.printf "fs_mknod: %s: file exists\n" [.str name.bytes])
          else
            let a := allocInode fs type
            let m := u16 a.1
            if m = nullInum then .ok (nullInum, a.2)
            else linkInode a.2 m r.1 di name parent

end Hobby386
