import Hobby386.Mkfs.Session
import Mathlib.Logic.Relation

/-!
# The partitions of a disk

`mkfs` is started with the number of a partition, on a disk that has several of them. Whatever is
done in sessions on the other partitions, each partition keeps its file system: sessions change only
blocks of their own partition, and what is said about a file system depends only on these.
-/

namespace Hobby386.Mkfs

open Relation Runs

/-- The disk has the file system in the blocks of the partition. -/
structure Carried (p : Partition) (fs : Fs) (d : Disk) : Prop where
  image : Image p fs
  blocks : ∀ n, p.Contains n → d n = fs.disk n

/-- Nothing has been written to the partition. -/
def Blank (p : Partition) (d : Disk) : Prop := ∀ n, p.Contains n → d n = .zero

/-- The partitions that are used can be, and have no block in common. -/
structure PartTable (parts : ℕ → Partition) (used : ℕ → Prop) : Prop where
  seekable : ∀ i, used i → Seekable (parts i)
  apart : ∀ i j, used i → used j → i ≠ j → ∀ n, (parts i).Contains n → ¬(parts j).Contains n

/-- The partitions of a table can be formatted. -/
theorem PartTable.usable {parts : ℕ → Partition} {used : ℕ → Prop} (h : PartTable parts used)
    (i : ℕ) (hi : used i) :
    (parts i).Usable := (h.seekable i hi).toUsable

/-- A run of `mkfs` on a partition: it mounts the partition, which can format it, and then there is
a session. -/
def Visit (p : Partition) (W : ℕ → Prop) (d d' : Disk) : Prop :=
  ∃ fs₀ t fs, mkfsMount (Fs.boot d) p = .ok fs₀ ∧ Session p W fs₀ t fs ∧ fs.disk = d'

/-- Runs of `mkfs`, one after the other, each on a used partition. On partition `i` the lines write
to regular files of `W i` only. -/
def Visits (parts : ℕ → Partition) (used : ℕ → Prop) (W : ℕ → ℕ → Prop) : Disk → Disk → Prop :=
  ReflTransGen fun d d' => ∃ i, used i ∧ Visit (parts i) (W i) d d'

/-! ## One partition -/

section One

variable {p : Partition} {d d' : Disk} {fs fs' : Fs} {W : ℕ → Prop} {n : ℕ}

/-- An image is also an image when the blocks outside the partition are others. -/
theorem Image.congr (h : Image p fs) (hp : p.Usable) (hinit : fs'.init = fs.init) (hsu : fs'.su = fs.su)
    (hblocks : ∀ n, p.Contains n → fs'.disk n = fs.disk n) : Image p fs' ∧ FilesKept W fs fs' := by
  have hsound := h.sane.sound
  have hsame : SameInside fs fs' := by
    refine ⟨hinit, hsu, fun b hb => hblocks b ?_⟩
    by_contra hout
    exact hb (h.outside hp hout)
  have hlow := hp.nonempty
  have hsuper : fs'.disk p.startlba = fs.disk p.startlba := hblocks _ ⟨le_rfl, by omega⟩
  refine ⟨⟨hsame.sane h.sane, hsame.tree hsound.wellFormed h.tree, ⟨?_, ?_, ?_⟩, ?_⟩,
    hsame.filesKept hsound⟩
  · rw [hinit, h.mounted.init]
  · rw [hsuper, hsu, h.mounted.super]
  · rw [hsu, h.mounted.magic]
  · rw [hsu, h.su_eq]

/-- Mounting a partition finds the file system on it. -/
theorem Carried.mount (h : Carried p fs d) (hp : p.Usable) :
    ∃ fs₀, mkfsMount (Fs.boot d) p = .ok fs₀ ∧ Image p fs₀ ∧ FilesKept W fs fs₀ ∧ fs₀.disk = d := by
  have hsame : Image p { fs with disk := d, printed := [] } ∧
    FilesKept W fs { fs with disk := d, printed := [] } :=
    h.image.congr hp rfl rfl h.blocks
  obtain ⟨himage, hkept⟩ := hsame
  exact ⟨_, himage.mounted.mkfsMount_eq, himage, hkept, rfl⟩

/-- A partition of zeros is formatted. -/
theorem Blank.mount (h : Blank p d) (hp : p.Usable) : ∃ fs₀, mkfsMount (Fs.boot d) p = .ok fs₀ ∧
    Image p fs₀ ∧
    ∀ n, ¬p.Contains n → fs₀.disk n = d n := by
  obtain ⟨fs₀, hmount, -⟩ := formatted_mkfsMount hp h
  exact ⟨fs₀, hmount, image_mkfsMount hp h hmount, fun n hn => mkfsMount_frame hp h hmount hn⟩

/-- A file system is carried by its own disk. -/
theorem Image.carried (h : Image p fs) : Carried p fs fs.disk := ⟨h, fun _ _ => rfl⟩

/-- A run of `mkfs` keeps the file system, but for the files that it may write to, and changes no
other block. -/
theorem Carried.visit (h : Carried p fs d) (hp : p.Usable) (hW : Protects W fs)
    (hvisit : Visit p W d d') :
    (∃ fs', Carried p fs' d' ∧ FilesKept W fs fs') ∧ ∀ n, ¬p.Contains n → d' n = d n := by
  obtain ⟨fs₀, t, fs₁, hmount, hsession, rfl⟩ := hvisit
  obtain ⟨fs₀', hmount', himage, hkept, hdisk⟩ := h.mount hp (W := W)
  rw [hmount] at hmount'
  cases hmount'
  obtain ⟨himage₁, hruns⟩ := himage.session hp (hW.kept hkept) hsession
  refine ⟨⟨fs₁, himage₁.carried, hkept.trans hruns.filesKept⟩, fun n hn => ?_⟩
  rw [hruns.outside n (himage.outside hp hn), hdisk]

/-- On a partition of zeros it leaves a file system. -/
theorem Blank.visit (h : Blank p d) (hp : p.Usable) (hvisit : Visit p (fun _ => True) d d') :
    (∃ fs', Carried p fs' d') ∧ ∀ n, ¬p.Contains n → d' n = d n := by
  obtain ⟨fs₀, t, fs₁, hmount, hsession, rfl⟩ := hvisit
  obtain ⟨fs₀', hmount', himage, hframe⟩ := h.mount hp
  rw [hmount] at hmount'
  cases hmount'
  obtain ⟨himage₁, hruns⟩ := himage.session hp (fun _ hW => absurd trivial hW) hsession
  refine ⟨⟨fs₁, himage₁.carried⟩, fun n hn => ?_⟩
  rw [hruns.outside n (himage.outside hp hn), hframe n hn]

/-- Lines that write to files of `W` only write to some files. -/
theorem session_mono {t : List (Turn × Option Ending)} (h : Session p W fs t fs') :
    Session p (fun _ => True) fs t fs' := by
  refine h.mono fun _ _ turn hon => ?_
  cases turn with
  | command host fuel line =>
    intro w q path r n fs₂ hword hhandler hpath hlookup hn
    exact ⟨(hon w q path r n fs₂ hword hhandler hpath hlookup hn).1, trivial⟩
  | start => trivial

/-- A visit that may write to some inodes may write to all. -/
theorem Visit.mono (h : Visit p W d d') : Visit p (fun _ => True) d d' := by
  obtain ⟨fs₀, t, fs₁, hmount, hsession, hdisk⟩ := h
  exact ⟨fs₀, t, fs₁, hmount, session_mono hsession, hdisk⟩

end One

/-! ## All partitions -/

section All

variable {parts : ℕ → Partition} {used : ℕ → Prop} {W : ℕ → ℕ → Prop} {d d' : Disk} {fs : Fs} {i k : ℕ}

/-- Every used partition has a file system or is still blank. -/
def Tended (parts : ℕ → Partition) (used : ℕ → Prop) (d : Disk) : Prop :=
  ∀ i, used i → Blank (parts i) d ∨ ∃ fs, Carried (parts i) fs d

/-- A run of `mkfs` on one partition changes no block of the others. -/
theorem Tended.frame (h : Tended parts used d) (htable : PartTable parts used) (hi : used i)
    (hvisit : Visit (parts i) (W i) d d') : ∀ n, ¬(parts i).Contains n → d' n = d n := by
  rcases h i hi with hblank | ⟨fs, hcarried⟩
  · exact (hblank.visit (htable.usable i hi) hvisit.mono).2
  · exact (hcarried.visit (htable.usable i hi) (fun _ hW => absurd trivial hW) hvisit.mono).2

/-- A visit of one partition keeps all others tended. -/
theorem Tended.visit (h : Tended parts used d) (htable : PartTable parts used) (hi : used i)
    (hvisit : Visit (parts i) (W i) d d') : Tended parts used d' := by
  intro j hj
  rcases eq_or_ne j i with rfl | hne
  · rcases h j hj with hblank | ⟨fs, hcarried⟩
    · exact .inr (hblank.visit (htable.usable j hj) hvisit.mono).1
    · obtain ⟨⟨fs', hcarried', -⟩, -⟩ :=
        hcarried.visit (htable.usable j hj) (fun _ hW => absurd trivial hW) hvisit.mono
      exact .inr ⟨fs', hcarried'⟩
  · have hframe := h.frame htable hi hvisit
    have hsame : ∀ n, (parts j).Contains n → d' n = d n := fun n hn =>
      hframe n (htable.apart j i hj hi hne n hn)
    rcases h j hj with hblank | ⟨fs, hcarried⟩
    · exact .inl fun n hn => (hsame n hn).trans (hblank n hn)
    · exact .inr ⟨fs, hcarried.image, fun n hn => (hsame n hn).trans (hcarried.blocks n hn)⟩

/-- Whatever is done to its disk, a partition keeps the files that are not written to, and the
blocks of no partition never change. -/
theorem Tended.visits (h : Tended parts used d) (htable : PartTable parts used)
    (hvisits : Visits parts used W d d') :
    Tended parts used d' ∧ (∀ n, (∀ i, used i → ¬(parts i).Contains n) → d' n = d n) ∧
      ∀ k fs, used k → Carried (parts k) fs d → Protects (W k) fs →
        ∃ fs', Carried (parts k) fs' d' ∧ FilesKept (W k) fs fs' := by
  induction hvisits with
  | refl => exact ⟨h, fun _ _ => rfl, fun k fs _ hcarried _ => ⟨fs, hcarried, fun _ _ _ _ =>
      ⟨rfl, fun _ => rfl, fun _ => rfl⟩, fun _ _ => rfl⟩⟩
  | @tail d₁ d₂ _ hlast ih =>
    obtain ⟨i, hi, hvisit⟩ := hlast
    obtain ⟨htended, hframe, hkeeps⟩ := ih
    have hothers := htended.frame htable hi hvisit
    refine ⟨htended.visit htable hi hvisit, fun n hn => ?_, fun k fs hk hcarried hW => ?_⟩
    · rw [hothers n (hn i hi), hframe n hn]
    · obtain ⟨fs₁, hcarried₁, hkept⟩ := hkeeps k fs hk hcarried hW
      rcases eq_or_ne k i with rfl | hne
      · obtain ⟨⟨fs', hcarried', hkept'⟩, -⟩ :=
          hcarried₁.visit (htable.usable k hk) (hW.kept hkept) hvisit
        exact ⟨fs', hcarried', hkept.trans hkept'⟩
      · exact ⟨fs₁, ⟨hcarried₁.image, fun n hn =>
          (hothers n (htable.apart k i hk hi hne n hn)).trans (hcarried₁.blocks n hn)⟩, hkept⟩

/-- Mounting a used partition finds or makes a file system. -/
theorem Tended.mount (h : Tended parts used d) (htable : PartTable parts used) (hk : used k) {fs₀ : Fs}
    (hmount : mkfsMount (Fs.boot d) (parts k) = .ok fs₀) : Image (parts k) fs₀ := by
  have hp := htable.usable k hk
  rcases h k hk with hblank | ⟨fs, hcarried⟩
  · exact image_mkfsMount hp hblank hmount
  · obtain ⟨fs', hmount', himage, -⟩ := hcarried.mount hp (W := fun _ => True)
    rw [hmount] at hmount'
    cases hmount'
    exact himage

end All

/-! ## Systems on several partitions -/

section Several

variable {parts : ℕ → Partition} {used : ℕ → Prop} {d₀ d d' : Disk} {fs₀ fs fs₁ fs₂ : Fs} {host : Host}
  {fuel n k : ℕ} {line : CommandLine} {src dst : CString} {reads : List HostRead}
  {t t' : List (Turn × Option Ending)}

/-- The session in which a file is migrated is one of the runs. -/
theorem visit_of_migrated {p : Partition} (hmount : mkfsMount (Fs.boot d) p = .ok fs₀)
    (h : Session p (fun _ => True) fs₀ t fs) (hline : line.Migrates src dst)
    (hend : command host fuel fs line = .ok (some (.copied n reads, fs₁)))
    (hrest : Session p (· ≠ n) fs₁ t' fs₂) :
    Visit p (fun _ => True) d fs₂.disk := by
  have hturn : Turn.exec p (.command host fuel line) fs = .ok (some (.copied n reads), fs₁) := by
    rw [Turn.exec, hend]
  have hon : (Turn.command host fuel line).On (fun _ => True) fs := hline.writesOn
  exact ⟨fs₀, _, fs₂, hmount, (h.call hon hturn).trans (session_mono hrest), rfl⟩

/-- A file that has been migrated to one partition is there after all further runs of `mkfs` on the
disk. -/
theorem migrated_carried (htable : PartTable parts used) (hblank : ∀ i, used i → Blank (parts i) d₀)
    (hbefore : Visits parts used (fun _ _ => True) d₀ d) (hk : used k)
    (hmount : mkfsMount (Fs.boot d) (parts k) = .ok fs₀) (h : Session (parts k) (fun _ => True) fs₀ t fs)
    (hline : line.Migrates src dst)
    (hend : command host fuel fs line = .ok (some (.copied n reads, fs₁))) (hfine : .error ∉ reads)
    (hrest : Session (parts k) (· ≠ n) fs₁ t' fs₂)
    (hlater : Visits parts used (fun i x => i = k → x ≠ n) fs₂.disk d') :
    Tended parts used d' ∧ (∀ b, (∀ i, used i → ¬(parts i).Contains b) → d' b = d₀ b) ∧ n ≠ nullInum ∧
      ∃ fs', Carried (parts k) fs' d' ∧ fsLookup fs' (some dst) = .ok (n, fs') ∧
      Holds fs' n (delivered reads) := by
  have hp := htable.usable k hk
  have htended₀ : Tended parts used d₀ := fun i hi => .inl (hblank i hi)
  obtain ⟨htended, hframe, -⟩ := htended₀.visits htable hbefore
  have hstart := htended.mount htable hk hmount
  obtain ⟨himage, hkept₀⟩ := hstart.session hp (fun _ hW => absurd trivial hW) h
  obtain ⟨hn, himage₁, hlookup₁, hholds₁⟩ := himage.migrated hp hline hend hfine
  obtain ⟨himage₂, hkept⟩ := himage₁.session hp (protects_of_holds hholds₁) hrest
  obtain ⟨hlookup₂, hholds₂⟩ :=
    hkept.filesKept.found himage₁.sane.sound himage₂.sane.sound hn hlookup₁ hholds₁
  have hvisit := visit_of_migrated hmount h hline hend hrest
  have htended₂ := htended.visit (W := fun _ _ => True) htable hk hvisit
  have hframe₂ := htended.frame (W := fun _ _ => True) htable hk hvisit
  obtain ⟨htended', hframe', hkeeps⟩ := htended₂.visits htable hlater
  obtain ⟨fs', hcarried, hkept'⟩ := hkeeps k fs₂ hk himage₂.carried fun x hx => by
    obtain rfl : x = n := not_not.mp fun hne => hx fun _ => hne
    exact ⟨hholds₂.stored.inum_lt, hholds₂.stored.reg⟩
  refine ⟨htended', fun b hb => ?_, hn, fs', hcarried, ?_⟩
  · rw [hframe' b hb, hframe₂ b (hb k hk), hframe b hb]
  · have hkept'' : FilesKept (· ≠ n) fs₂ fs' :=
      ⟨fun inum hinum hreg hspared => hkept'.files inum hinum hreg fun hW => hspared (hW rfl),
        hkept'.names⟩
    exact hkept''.found himage₂.sane.sound hcarried.image.sane.sound hn hlookup₂ hholds₂

end Several

end Hobby386.Mkfs
