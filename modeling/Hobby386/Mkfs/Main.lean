import Hobby386.Grab.Ide
import Hobby386.Mkfs.Partitions

/-!
# The program `mkfs`

`main` checks its arguments, looks for the signature and the partition table in the first sector of
the image, and mounts the partition that it is started for. The table that it goes by is the one on
the disk, so what it does must not change it: invocations with any arguments keep the first sector,
and each of them is either refused or a run on one of the partitions in the table.
-/

namespace Hobby386.Mkfs

open Relation Runs LittleEndian

/-! ## The start of `main` -/

/-- Why `main` exits before its loop. -/
inductive Refusal
  | usage
  | openError
  | invalidNumber (arg : CString)
  | missingMbr
  | emptyPartition (n : ℤ)

/-- `atoi`. -/
def atoi (s : CString) : ℤ := int32 (bits32 (strtol (skip isspace s)))

/-- The signature in the last bytes of a sector. -/
abbrev Signed (b : Block) : Prop := value b.get 2 510 = 0xaa55

/-- `partble[i].sysid`. -/
def sysid (b : Block) (i : ℕ) : UInt8 := b.get (446 + 16 * i + 4)

/-- `main` up to its loop, with its arguments and with what is in the image if it can be opened: the
number of the partition and the mounted file system. -/
def mainStart (argv : List CString) (image : Option Disk) : Except Fault (Refusal ⊕ (ℕ × Fs)) :=
  match argv with
  | _ :: _ :: number :: _ =>
    match image with
    | none => .ok (.inl .openError)
    | some disk =>
      let n := atoi number
      if number.bytes.length ≠ 1 ∨ isdigit (number.bytes.getD 0 0) = false ∨ n < 1 ∨ 4 < n then
        .ok (.inl (.invalidNumber number))
      else
        let b := disk 0
        if ¬Signed b then .ok (.inl .missingMbr)
        else if sysid b (n.toNat - 1) = 0 then .ok (.inl (.emptyPartition n))
        else do
          let fs ← mkfsMount (Fs.boot disk) (b.partition (n.toNat - 1))
          .ok (.inr (n.toNat, fs))
  | _ => .ok (.inl .usage)

/-- An invocation of the program that does not fault in its start: it is refused, or there is a
session on the partition that it has mounted. On the partition with the index `i` the lines write to
regular files of `W i` only. -/
inductive Invocation (W : ℕ → ℕ → Prop) (d : Disk) : Disk → Prop
  | refused {argv : List CString} {r : Refusal} (h : mainStart argv (some d) = .ok (.inl r)) :
    Invocation W d d
  | session {argv : List CString} {n : ℕ} {fs₀ fs : Fs} {t : List (Turn × Option Ending)}
      (h : mainStart argv (some d) = .ok (.inr (n, fs₀)))
      (hsession : Session ((d 0).partition (n - 1)) (W (n - 1)) fs₀ t fs) :
      Invocation W d fs.disk

/-- Entry `i` of the partition table is taken. -/
def InTable (b : Block) (i : ℕ) : Prop := i < 4 ∧ sysid b i ≠ 0

/-- A first sector with the signature, whose partitions can be used and leave the sector itself alone. -/
structure Table (b : Block) : Prop where
  signed : Signed b
  parts : PartTable b.partition (InTable b)
  behind : ∀ i, InTable b i → 0 < (b.partition i).startlba

/-! ## Arguments -/

variable {argv : List CString} {n : ℕ} {d d' : Disk} {fs fs₀ : Fs} {W : ℕ → ℕ → Prop}

/-- The digits. -/
theorem isdigit_iff {c : UInt8} : isdigit c = true ↔ ∃ k < 10, c = .ofNat (48 + k) := by
  constructor
  · intro h
    simp only [isdigit, Bool.and_eq_true, decide_eq_true_eq, UInt8.le_iff_toNat_le] at h
    refine ⟨c.toNat - 48, ?_, ?_⟩
    · have hhigh : c.toNat ≤ 57 := h.2
      omega
    · have hlow : 48 ≤ c.toNat := h.1
      rw [Nat.add_sub_cancel' hlow, UInt8.ofNat_toNat]
  · rintro ⟨k, hk, rfl⟩
    revert k
    decide

/-- A digit as an argument is its number. -/
theorem atoi_digit {s : CString} {k : ℕ} (hk : k < 10) (hs : s.bytes = [.ofNat (48 + k)]) :
    atoi s = k := by
  have hdigits : ∀ k : Fin 10, atoi ⟨[.ofNat (48 + k)], by revert k; decide⟩ = (k : ℕ) := by
    decide +kernel
  have hsame : s = ⟨[.ofNat (48 + k)], hs ▸ s.nulFree⟩ := CString.ext hs
  rw [hsame]
  exact hdigits ⟨k, hk⟩

/-- The check of the third argument. -/
theorem number_accepted (s : CString) :
    ¬(s.bytes.length ≠ 1 ∨ isdigit (s.bytes.getD 0 0) = false ∨ atoi s < 1 ∨ 4 < atoi s) ↔
      ∃ n, 1 ≤ n ∧ n ≤ 4 ∧ s.bytes = [.ofNat (48 + n)] := by
  constructor
  · intro h
    simp only [not_or, not_not, Bool.not_eq_false, not_lt] at h
    obtain ⟨hlength, hdigit, hlow, hhigh⟩ := h
    obtain ⟨c, hc⟩ := List.length_eq_one_iff.mp hlength
    rw [hc, List.getD_cons_zero] at hdigit
    obtain ⟨k, hk, rfl⟩ := isdigit_iff.mp hdigit
    rw [atoi_digit hk hc] at hlow hhigh
    exact ⟨k, by omega, by omega, hc⟩
  · rintro ⟨n, hlow, hhigh, hs⟩
    rw [hs, atoi_digit (by omega) hs]
    have hdigit := isdigit_iff.mpr ⟨n, by omega, rfl⟩
    simp only [List.length_singleton, List.getD_cons_zero, hdigit, ne_eq, not_true,
      Bool.true_eq_false, false_or]
    omega

/-- The program mounts the partition whose number is the third argument, when that is a digit from 1
to 4 and the first sector has the signature and an entry for it. -/
theorem mainStart_mounts : mainStart argv (some d) = .ok (.inr (n, fs₀)) ↔
    ∃ prog img number rest, argv = prog :: img :: number :: rest ∧
      number.bytes = [.ofNat (48 + n)] ∧ 1 ≤ n ∧ n ≤ 4 ∧
      Signed (d 0) ∧ sysid (d 0) (n - 1) ≠ 0 ∧ mkfsMount (Fs.boot d) ((d 0).partition (n - 1)) =
      .ok fs₀ := by
  constructor
  · intro h
    rw [mainStart.eq_def] at h
    split at h
    · rename_i prog img number rest
      dsimp only at h
      split at h
      · cases h
      rename_i hnumber
      obtain ⟨k, hlow, hhigh, hbytes⟩ := (number_accepted number).mp hnumber
      rw [atoi_digit (by omega) hbytes, Int.toNat_natCast] at h
      split at h
      · cases h
      rename_i hsigned
      split at h
      · cases h
      rename_i hsysid
      obtain ⟨fs, hmount, h⟩ := bind_eq_ok.mp h
      cases h
      exact ⟨prog, img, number, rest, rfl, hbytes, hlow, hhigh, not_not.mp hsigned, hsysid, hmount⟩
    · cases h
  · rintro ⟨prog, img, number, rest, rfl, hbytes, hlow, hhigh, hsigned, hsysid, hmount⟩
    have hnumber := (number_accepted number).mpr ⟨n, hlow, hhigh, hbytes⟩
    rw [mainStart]
    dsimp only
    rw [if_neg hnumber, if_neg (not_not_intro hsigned), atoi_digit (by omega) hbytes,
      Int.toNat_natCast, if_neg hsysid, hmount]
    rfl

/-- The program run so often, with any arguments. -/
def Invocations (W : ℕ → ℕ → Prop) : Disk → Disk → Prop := ReflTransGen (Invocation W)

/-- On a disk with a table an invocation is refused, or it is a run on a partition in the table. -/
theorem Invocation.visit (h : Invocation W d d') :
    d' = d ∨ ∃ i, InTable (d 0) i ∧ Visit ((d 0).partition i) (W i) d d' := by
  cases h with
  | refused => exact .inl rfl
  | @session argv n fs₀ fs t h hsession =>
    obtain ⟨-, -, -, -, -, -, hlow, hhigh, -, hsysid, hmount⟩ := mainStart_mounts.mp h
    exact .inr ⟨n - 1, ⟨by omega, hsysid⟩, fs₀, t, fs, hmount, hsession, rfl⟩

/-- A run on a partition in the table keeps the first sector. -/
theorem Tended.keeps_mbr {b : Block} (h : Tended b.partition (InTable b) d) (htable : Table b)
    {i : ℕ} (hi : InTable b i) (hvisit : Visit (b.partition i) (W i) d d') : d' 0 = d 0 := by
  have hbehind := htable.behind i hi
  refine h.frame htable.parts hi hvisit 0 fun hin => ?_
  have hstart := hin.1
  omega

/-- However often the program is run and with whatever arguments, the first sector stays as it is,
with its code and its table. So all these invocations are runs on the partitions that were in the
table at the start. -/
theorem Invocations.visits (htable : Table (d 0)) (htended : Tended (d 0).partition (InTable (d 0)) d)
    (h : Invocations W d d') : d' 0 = d 0 ∧ Visits (d 0).partition (InTable (d 0)) W d d' := by
  induction h with
  | refl => exact ⟨rfl, .refl⟩
  | @tail d₁ d₂ _ hlast ih =>
    obtain ⟨hmbr, hvisits⟩ := ih
    rcases hlast.visit with rfl | ⟨i, hi, hvisit⟩
    · exact ⟨hmbr, hvisits⟩
    · rw [hmbr] at hi hvisit
      obtain ⟨htended₁, -, -⟩ := htended.visits htable.parts hvisits
      exact ⟨(htended₁.keeps_mbr htable hi hvisit).trans hmbr, hvisits.tail ⟨i, hi, hvisit⟩⟩

/-- In one of the invocations on the disk `d₀` a line has migrated the bytes of a host file to `dst`
on the partition with the number `k`, no later line has written to this file, and now the disk is
`d'`. -/
inductive Prepared (d₀ : Disk) (k : ℕ) (dst : CString) (bytes : List UInt8) (d' : Disk) : Prop
  | intro {d : Disk} {argv : List CString} {fs₀ fs fs₁ fs₂ : Fs}
      {t t' : List (Turn × Option Ending)} {host : Host} {fuel n : ℕ} {line : CommandLine}
      {src : CString} {reads : List HostRead} (before : Invocations (fun _ _ => True) d₀ d)
      (start : mainStart argv (some d) = .ok (.inr (k, fs₀)))
      (session : Session ((d₀ 0).partition (k - 1)) (fun _ => True) fs₀ t fs)
      (migrates : line.Migrates src dst)
      (copied : command host fuel fs line = .ok (some (.copied n reads, fs₁)))
      (fine : .error ∉ reads) (rest : Session ((d₀ 0).partition (k - 1)) (· ≠ n) fs₁ t' fs₂)
      (later : Invocations (fun i x => i = k - 1 → x ≠ n) fs₂.disk d') (same : bytes = delivered reads)

/-- The file is there when the partition is mounted again, and no block outside of the partitions
has changed. -/
theorem Prepared.found {d₀ : Disk} {k : ℕ} {dst : CString} {bytes : List UInt8}
    (h : Prepared d₀ k dst bytes d') (htable : Table (d₀ 0))
    (hblank : ∀ i, InTable (d₀ 0) i → Blank ((d₀ 0).partition i) d₀) :
    d' 0 = d₀ 0 ∧ (∀ b, (∀ i, InTable (d₀ 0) i → ¬((d₀ 0).partition i).Contains b) → d' b = d₀ b) ∧
      InTable (d₀ 0) (k - 1) ∧ ∃ n fs, mkfsMount (Fs.boot d') ((d₀ 0).partition (k - 1)) = .ok fs ∧
      Image ((d₀ 0).partition (k - 1)) fs ∧ fs.disk = d' ∧ fsLookup fs (some dst) = .ok (n, fs) ∧
      n ≠ nullInum ∧
      Holds fs n bytes := by
  obtain @⟨d, argv, fs₀, fs, fs₁, fs₂, t, t', host, fuel, n, line, src, reads, before, start,
    session, migrates, copied, fine, rest, later, rfl⟩ := h
  have htended₀ : Tended (d₀ 0).partition (InTable (d₀ 0)) d₀ := fun i hi => .inl (hblank i hi)
  obtain ⟨hmbr, hvisits⟩ := before.visits htable htended₀
  obtain ⟨htended, -, -⟩ := htended₀.visits htable.parts hvisits
  obtain ⟨-, -, -, -, -, -, hlow, hhigh, -, hsysid, hmount⟩ := mainStart_mounts.mp start
  rw [hmbr] at hsysid hmount
  have hk : InTable (d₀ 0) (k - 1) := ⟨by omega, hsysid⟩
  have hp := htable.parts.usable _ hk
  -- this invocation
  have hvisit : Visit ((d₀ 0).partition (k - 1)) (fun _ => True) d fs₂.disk :=
    visit_of_migrated hmount session migrates copied rest
  have hmbr₂ : fs₂.disk 0 = d₀ 0 :=
    (htended.keeps_mbr (W := fun _ _ => True) htable hk hvisit).trans hmbr
  have htended₂ := htended.visit (W := fun _ _ => True) htable.parts hk hvisit
  -- the later ones
  obtain ⟨hmbr', hvisits'⟩ := later.visits (by rwa [hmbr₂]) (by rwa [hmbr₂])
  rw [hmbr₂] at hmbr' hvisits'
  obtain ⟨-, hframe, hn, fs', hcarried, hlookup, hholds⟩ :=
    migrated_carried htable.parts hblank hvisits hk hmount session migrates copied fine rest hvisits'
  obtain ⟨fs₃, hmount₃, himage, hkept, hdisk⟩ := hcarried.mount hp (W := (· ≠ n))
  obtain ⟨hlookup₃, hholds₃⟩ := hkept.found hcarried.image.sane.sound himage.sane.sound hn hlookup hholds
  exact ⟨hmbr', hframe, hk, n, fs₃, hmount₃, himage, hdisk, hlookup₃, hn, hholds₃⟩

end Hobby386.Mkfs
