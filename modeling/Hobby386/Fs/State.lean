import Hobby386.Fs.Layout
import Mathlib.Logic.Function.Basic

/-!
# The state of the file system implementation

`fs/fs.c` keeps its globals in one unnamed struct `fs`. Here it is a record: the `init` flag,
the mounted superblock, the disk reached through `disk_read` and `disk_write`, taken as a
plain array of blocks, and the calls made to `fs.printf` so far. Every function takes the
record and returns the new one.

A call that would store outside an array, or that enters the endless loop of `panic()`, has
no result in C; it ends in a `Fault`.
-/

namespace Hobby386

/-- What `uint32_t` keeps of a number. -/
def u32 (n : ℕ) : ℕ := n % 4294967296

/-- A 32-bit number is not cut. -/
theorem u32_of_lt {n : ℕ} (h : n < 4294967296) : u32 n = n := Nat.mod_eq_of_lt h

/-- A cut number has 32 bits. -/
theorem u32_lt (n : ℕ) : u32 n < 4294967296 := Nat.mod_lt _ (by decide)

/-- The conversion of a `uint32_t` to `int`. -/
def int32 (n : ℕ) : ℤ := if n < 2147483648 then n else (n : ℤ) - 4294967296

/-- A number below the sign bit is read as itself. -/
theorem int32_of_lt {n : ℕ} (h : n < 2147483648) : int32 n = n := if_pos h

/-- How a call can fail to return. -/
inductive Fault
  | outOfBounds
  | panic
  /-- Used by observers of the code only: the observed event has happened. -/
  | stopped
  deriving DecidableEq

/-- A sequence of two computations returns exactly when both do. -/
theorem bind_eq_ok {ε α β : Type} {x : Except ε α} {f : α → Except ε β} {b : β} :
    (x >>= f) = .ok b ↔ ∃ a, x = .ok a ∧ f a = .ok b := by
  cases x with
  | error e => simp [bind, Except.bind]
  | ok a => simp [bind, Except.bind]

/-- A computation goes on behind a result. -/
@[simp] theorem ok_bind {ε α β : Type} (a : α) (f : α → Except ε β) :
    ((Except.ok a : Except ε α) >>= f) = f a := rfl

/-- A computation stops at a fault. -/
@[simp] theorem error_bind {ε α β : Type} (e : ε) (f : α → Except ε β) :
    ((Except.error e : Except ε α) >>= f) = .error e := rfl

/-- An argument of `fs.printf`. -/
inductive PrintArg
  | num (n : ℕ)
  | str (s : List UInt8)
  deriving DecidableEq

/-- The disk behind `disk_read` and `disk_write`. -/
abbrev Disk := ℕ → Block

/-- The static struct `fs`, with the disk and the printed messages it acts on. -/
structure Fs where
  init : Bool
  su : Superblock
  disk : Disk
  printed : List (String × List PrintArg)

/-- `fs.disk_read(n, &b)`. -/
def Fs.diskRead (fs : Fs) (n : ℕ) : Block := fs.disk n

/-- `fs.disk_write(n, &b)`. -/
def Fs.diskWrite (fs : Fs) (n : ℕ) (b : Block) : Fs :=
  { fs with disk := Function.update fs.disk n b }

/-- `fs.printf(fmt, ...)`. -/
def Fs.printf (fs : Fs) (fmt : String) (args : List PrintArg) : Fs :=
  { fs with printed := fs.printed ++ [(fmt, args)] }

/-- A block written leaves the superblock in memory alone. -/
@[simp] theorem Fs.diskWrite_su (fs : Fs) (n : ℕ) (b : Block) : (fs.diskWrite n b).su = fs.su := rfl

/-- A written block reads back. -/
@[simp] theorem Fs.diskWrite_disk_self (fs : Fs) (n : ℕ) (b : Block) :
    (fs.diskWrite n b).disk n = b := by
  simp [Fs.diskWrite]

/-- A block written leaves the others alone. -/
theorem Fs.diskWrite_disk_of_ne {fs : Fs} {m n : ℕ} {b : Block} (h : m ≠ n) :
    (fs.diskWrite n b).disk m = fs.disk m := by
  simp [Fs.diskWrite, h]

/-- Writing back the block just read changes nothing. -/
theorem Fs.diskWrite_diskRead (fs : Fs) (n : ℕ) : fs.diskWrite n (fs.diskRead n) = fs := by
  simp [Fs.diskWrite, Fs.diskRead, Function.update_eq_self]

/-- The caller's memory, addressed from the start of the buffer passed in. -/
abbrev Memory := ℕ → UInt8

/-- `memset(&mem[p], c, n)`. -/
def memset (mem : Memory) (p : ℕ) (c : UInt8) (n : ℕ) : Memory :=
  fun i => if p ≤ i ∧ i < p + n then c else mem i

/-- `memcpy(&dst[p], &src[q], n)`. -/
def memcpy (dst : Memory) (p : ℕ) (src : Memory) (q n : ℕ) : Memory :=
  fun i => if p ≤ i ∧ i < p + n then src (q + (i - p)) else dst i

end Hobby386
