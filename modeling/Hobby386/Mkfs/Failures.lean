import Hobby386.Mkfs.Commands
import Hobby386.Mkfs.FileRoom

/-!
# Commands that fail

A command that ends in a usage text or in an error of the host should leave the disk alone, and
`do_migrate` should store what the host delivers and come to an end. `do_mkdir` and `do_touch` go on
behind their usage text and create whatever path the buffer happens to hold. `do_migrate` creates
the inode before it opens the host file, and takes a failed read for one of a byte.
-/

namespace Hobby386.Mkfs

variable {host : Host} {fs fs' : Fs} {inum fuel i k off : ℕ} {src dst : CString} {line : CommandLine}

/-- The command has ended in a usage text, for want of an argument, or in an error of the host. -/
def Ending.Failed : Ending → Prop
  | .usage _ | .missing _ | .openError => True
  | .copied _ reads => .error ∈ reads
  | _ => False

/-- The bytes that reads have delivered. -/
def delivered (reads : List HostRead) : List UInt8 :=
  reads.filterMap fun
    | .byte c => some c
    | _ => none

/-- The line calls `do_migrate` with a host path and a path. -/
def CommandLine.Migrates (line : CommandLine) (src dst : CString) : Prop :=
  ∃ w p q r, nextword line.text = some (w, p) ∧ handler w = .migrate ∧ nextword p = some (src, q) ∧
    nextword q = some (dst, r)

/-- The line calls `do_mkdir` or `do_touch` without a path. -/
def CommandLine.LacksPath (line : CommandLine) : Prop :=
  ∃ w p, nextword line.text = some (w, p) ∧ (handler w = .mkdir ∨ handler w = .touch) ∧ nextword p = none

/-- A command that fails leaves the disk as it was, and `do_migrate` ends and stores what the host has
delivered. -/
structure FailsSafely (host : Host) (fs : Fs) (line : CommandLine) : Prop where
  atomic : ∀ fuel e fs', command host fuel fs line = .ok (some (e, fs')) → e.Failed → fs'.disk = fs.disk
  copies : ∀ src dst, line.Migrates src dst → ∃ fuel e fs', command host fuel fs line =
    .ok (some (e, fs')) ∧
    ∀ inum reads, e = .copied inum reads → Holds fs' inum (delivered reads)

/-! ## The copying loop -/

/-- The host delivers these bytes and then the end of the file. -/
structure Host.Delivers (host : Host) (D : List UInt8) : Prop where
  eof : host.reads D.length = .eof
  bytes : (List.range' 0 D.length).map host.reads = D.map .byte

/-- The loop writes a byte for every read in front of the end of the file. -/
theorem migrateLoop_of_eof (heof : host.reads (i + k) = .eof)
    (hbefore : ∀ j < k, host.reads (i + j) ≠ .eof) (hfuel : k < fuel) :
    migrateLoop host inum fuel i off fs =
      (migrateBytes inum off ((List.range' i k).map host.char) fs).map
        fun fs' => some ((List.range' i k).map host.reads, fs') := by
  induction k generalizing fuel i off fs with
  | zero =>
    obtain ⟨fuel, rfl⟩ := Nat.exists_eq_add_one_of_ne_zero (Nat.ne_of_gt hfuel)
    rw [migrateLoop, if_pos (show host.reads i = .eof from heof)]
    rfl
  | succ k ih =>
    obtain ⟨fuel, rfl⟩ := Nat.exists_eq_add_one_of_ne_zero (Nat.ne_of_gt (Nat.zero_lt_of_lt hfuel))
    have hnow : host.reads i ≠ .eof := hbefore 0 (Nat.succ_pos k)
    rw [migrateLoop, if_neg hnow, List.range'_succ, List.map_cons, List.map_cons, migrateBytes]
    cases fsWrite fs inum (.ofList [host.char i]) 1 off with
    | error e => rfl
    | ok r =>
      rw [ok_bind, ok_bind]
      split
      · rfl
      · have hrest : migrateLoop host inum fuel (i + 1) (u32 (off + 1)) r.2 =
            (migrateBytes inum (u32 (off + 1)) ((List.range' (i + 1) k).map host.char) r.2).map
              fun fs' => some ((List.range' (i + 1) k).map host.reads, fs') := by
          apply ih
          · rw [← heof]
            congr 1
            omega
          · intro j hj
            rw [Nat.add_assoc, Nat.add_comm 1 j]
            exact hbefore (j + 1) (by omega)
          · omega
        rw [hrest]
        cases migrateBytes inum (u32 (off + 1)) ((List.range' (i + 1) k).map host.char) r.2 with
        | error e => rfl
        | ok fs' => rfl

/-- The loop ends at the end of the file only. -/
theorem eof_of_migrateLoop {reads : List HostRead}
    (h : migrateLoop host inum fuel i off fs = .ok (some (reads, fs'))) :
    ∃ k < fuel, host.reads (i + k) = .eof ∧ ∀ j < k, host.reads (i + j) ≠ .eof := by
  induction fuel generalizing i off fs reads with
  | zero => cases h
  | succ fuel ih =>
    rw [migrateLoop] at h
    split at h
    · rename_i heof
      exact ⟨0, Nat.succ_pos fuel, heof, fun j hj => absurd hj (Nat.not_lt_zero j)⟩
    · rename_i hnow
      rw [bind_eq_ok] at h
      obtain ⟨r, -, h⟩ := h
      split at h
      · cases h
      · rw [bind_eq_ok] at h
        obtain ⟨rest, hrest, h⟩ := h
        cases rest with
        | none => cases h
        | some t =>
          obtain ⟨rest, fs₁⟩ := t
          cases h
          obtain ⟨k, hk, heof, hbefore⟩ := ih hrest
          refine ⟨k + 1, Nat.succ_lt_succ hk, by rw [← heof]; congr 1; omega, fun j hj => ?_⟩
          cases j with
          | zero => exact hnow
          | succ j =>
            have hj' := hbefore j (by omega)
            rwa [Nat.add_assoc, Nat.add_comm 1 j] at hj'

/-- What a finished loop has read and written. -/
theorem migrateLoop_done {reads : List HostRead}
    (h : migrateLoop host inum fuel i off fs = .ok (some (reads, fs'))) :
    ∃ k, host.reads (i + k) = .eof ∧ (∀ j < k, host.reads (i + j) ≠ .eof) ∧
      reads = (List.range' i k).map host.reads ∧
      migrateBytes inum off ((List.range' i k).map host.char) fs = .ok fs' := by
  obtain ⟨k, hk, heof, hbefore⟩ := eof_of_migrateLoop h
  rw [migrateLoop_of_eof heof hbefore hk] at h
  refine ⟨k, heof, hbefore, ?_⟩
  cases hrun : migrateBytes inum off ((List.range' i k).map host.char) fs with
  | error e =>
    rw [hrun] at h
    cases h
  | ok fs₁ =>
    rw [hrun] at h
    cases h
    exact ⟨rfl, rfl⟩

section Delivers

variable {D : List UInt8} (h : host.Delivers D)

include h

/-- The bytes of the file are what the reads return. -/
theorem Host.Delivers.reads_eq {j : ℕ} (hj : j < D.length) : host.reads j = .byte D[j] := by
  have hget := congrArg (fun l => l[j]?) h.bytes
  simpa [hj] using hget

/-- The characters read are the bytes of the file. -/
theorem Host.Delivers.chars : (List.range' 0 D.length).map host.char = D := by
  apply List.ext_getElem (by simp)
  intro j hj hj'
  rw [List.getElem_map, List.getElem_range', Nat.one_mul, Nat.zero_add, Host.char, h.reads_eq hj']

/-- The file does not end before its length. -/
theorem Host.Delivers.before {j : ℕ} (hj : j < D.length) : host.reads (0 + j) ≠ .eof := by
  rw [Nat.zero_add, h.reads_eq hj]
  intro heq
  cases heq

/-- The file ends once. -/
theorem Host.Delivers.length_eq (heof : host.reads (0 + k) = .eof)
    (hbefore : ∀ j < k, host.reads (0 + j) ≠ .eof) : k = D.length := by
  rcases Nat.lt_trichotomy k D.length with hlt | heq | hgt
  · exact absurd heof (h.before hlt)
  · exact heq
  · exact absurd h.eof (Nat.zero_add D.length ▸ hbefore _ hgt)

end Delivers

/-- A loop without failed reads gets a whole file. -/
theorem delivers_of_reads (heof : host.reads (0 + k) = .eof)
    (hbefore : ∀ j < k, host.reads (0 + j) ≠ .eof)
    (hfine : .error ∉ (List.range' 0 k).map host.reads) :
    host.Delivers ((List.range' 0 k).map host.char) := by
  have hlen : ((List.range' 0 k).map host.char).length = k := by simp
  refine ⟨by rw [hlen, ← heof, Nat.zero_add], ?_⟩
  rw [hlen, List.map_map]
  apply List.map_congr_left
  intro j hj
  have hlt : j < k := by simpa using hj
  rw [Function.comp_apply, Host.char]
  cases hread : host.reads j with
  | byte c => rfl
  | eof => exact absurd (by rw [Nat.zero_add, hread]) (hbefore j hlt)
  | error => exact absurd (List.mem_map.mpr ⟨j, hj, hread⟩) hfine

/-- A list of bytes is delivered as it is. -/
theorem delivered_bytes (D : List UInt8) : delivered (D.map .byte) = D := by
  induction D with
  | nil => rfl
  | cons c D ih =>
    rw [List.map_cons, delivered, List.filterMap_cons]
    exact congrArg (c :: ·) ih

/-! ## Migrating -/

/-- How `do_migrate` with two paths can end. -/
theorem migratePaths_cases {e : Ending} (h : migratePaths host fuel fs src dst = .ok (some (e, fs'))) :
    (∃ n, n ≠ nullInum ∧ fsLookup fs (some dst) = .ok (n, fs)) ∧ ¬e.Failed ∨
      fsLookup fs (some dst) = .ok (nullInum, fs) ∧ ∃ m fs₁, m ≠ nullInum ∧
        fsMknod fs (some dst) tReg = .ok (m, fs₁) ∧
        (host.opens src = false ∧ e = .openError ∧ fs' = fs₁ ∨ host.opens src = true ∧ ∃ reads,
          e = .copied m reads ∧ migrateLoop host m fuel 0 0 fs₁ = .ok (some (reads, fs'))) := by
  rw [migratePaths, bind_eq_ok] at h
  obtain ⟨⟨n, fs₀⟩, hlookup, h⟩ := h
  obtain rfl : fs₀ = fs := fsLookup_keeps hlookup
  split at h
  · rename_i hn
    cases h
    exact .inl ⟨⟨n, hn, hlookup⟩, id⟩
  · rename_i hn
    obtain rfl : n = nullInum := not_not.mp hn
    rw [bind_eq_ok] at h
    obtain ⟨⟨m, fs₁⟩, hmknod, h⟩ := h
    split at h
    · cases h
    · rename_i hm
      refine .inr ⟨hlookup, m, fs₁, hm, hmknod, ?_⟩
      split at h
      · rename_i hopens
        cases h
        exact .inl ⟨hopens, rfl, rfl⟩
      · rename_i hopens
        rw [bind_eq_ok] at h
        obtain ⟨t, hloop, h⟩ := h
        cases t with
        | none => cases h
        | some t =>
          obtain ⟨reads, fs₂⟩ := t
          cases h
          exact .inr ⟨Bool.not_eq_false _ ▸ hopens, reads, rfl, hloop⟩

/-- With a host file that can be opened and read, `do_migrate` copies the bytes of the file. -/
theorem Host.Delivers.migratePaths_eq {D : List UInt8} (h : host.Delivers D)
    (hopens : host.opens src = true) (hfuel : D.length < fuel) :
    (migratePaths host fuel fs src dst).map (fun r => r.map (·.2)) =
      (migrate fs (some D) dst).map some := by
  rw [migratePaths, migrate]
  cases fsLookup fs (some dst) with
  | error e => rfl
  | ok l =>
    rw [ok_bind, ok_bind]
    split
    · rfl
    · cases fsMknod l.2 (some dst) tReg with
      | error e => rfl
      | ok m =>
        rw [ok_bind, ok_bind]
        split
        · rfl
        · have heof : host.reads (0 + D.length) = .eof := by rw [Nat.zero_add, h.eof]
          rw [hopens, if_neg (by decide), migrateLoop_of_eof heof (fun j hj => h.before hj) hfuel,
            h.chars]
          dsimp only
          cases migrateBytes m.1 0 D m.2 with
          | error e => rfl
          | ok fs' => rfl

/-- What has been migrated is retrieved unchanged. -/
theorem Host.Delivers.retrieve_migrated {D : List UInt8} {e : Ending} (h : host.Delivers D)
    (hopens : host.opens src = true) (hfuel : D.length < fuel) (hsound : Sound fs)
    (hlen : dst.bytes.length < maxPath) (hshort : dst.ShortNames)
    (hnew : fsLookup fs (some dst) = .ok (nullInum, fs))
    (hrun : migratePaths host fuel fs src dst = .ok (some (e, fs'))) :
    retrieve fuel fs' dst true = .ok (.copied D, fs') := by
  have heq : (migratePaths host fuel fs src dst).map _ = (migrate fs (some D) dst).map some :=
    h.migratePaths_eq hopens hfuel
  rw [hrun] at heq
  cases hmigrate : migrate fs (some D) dst with
  | error f =>
    rw [hmigrate] at heq
    cases heq
  | ok fs₁ =>
    rw [hmigrate] at heq
    cases heq
    exact retrieve_migrate hsound hlen hshort ⟨_, hnew, rfl⟩ hmigrate hfuel

/-- The path does not lead to an inode yet, but to a directory with room for its entry; the host
file can be opened and delivers its bytes; and there is room for them behind the entry. -/
structure Host.CanMigrate (host : Host) (fs : Fs) (src dst : CString) (D : List UInt8)
    (name parent : CString) (n x : ℕ) : Prop where
  absent : fsLookup fs (some dst) = .ok (nullInum, fs)
  create : fs.CanCreate dst name parent n x
  opens : host.opens src = true
  delivers : host.Delivers D
  length_le : D.length ≤ maxBytes
  room : blocksFor D.length ≤ (freeBlocks fs.su fs.disk).length - (fs.entryNulls n).length

section Migrate

variable (hwf : WellFormed fs) (hnull : (fs.dinode nullInum).type ≠ 0)

include hwf hnull

/-- A new inode is seen on the disk. -/
theorem disk_ne_of_created {fs₁ : Fs} {m : ℕ} (hmknod : fsMknod fs (some dst) tReg = .ok (m, fs₁))
    (hm : m ≠ nullInum) (hsu : fs'.su = fs₁.su) (hreg : (fs'.dinode m).type = tReg) :
    fs'.disk ≠ fs.disk := by
  obtain ⟨name, parent, n, hcreate, heffect, -⟩ := fsMknod_created hwf hnull hmknod hm
  intro hdisk
  have hdinode : fs'.dinode m = fs.dinode m := by rw [Fs.dinode, Fs.dinode, hdisk, hsu, heffect.su_eq]
  rw [hdinode, hcreate.first.2.1] at hreg
  exact absurd hreg (by decide)

variable (hdat : fs.su.nblockDat ≤ 4096)

include hdat

/-- What can be migrated is, and the command ends with it. -/
theorem Host.CanMigrate.migratePaths {D : List UInt8} {name parent : CString} {n x : ℕ}
    (h : host.CanMigrate fs src dst D name parent n x) :
    (∀ fuel e fs', Mkfs.migratePaths host fuel fs src dst = .ok (some (e, fs')) → e = .copied x
      (D.map .byte)) ∧
      ∃ fs', Mkfs.migratePaths host (D.length + 1) fs src dst =
        .ok (some (.copied x (D.map .byte), fs')) ∧
        Holds fs' x D := by
  obtain ⟨fs₁, hmknod⟩ := h.create.fsMknod hwf hnull hdat (show tReg ≤ 3 by decide)
  have hx : x ≠ nullInum := by
    rintro rfl
    exact hnull h.create.first.2.1
  obtain ⟨name', parent', n', hcreate, heffect, hnew⟩ := fsMknod_created hwf hnull hmknod hx
  obtain ⟨rfl, rfl, rfl, -⟩ := h.create.unique hcreate
  have hpasses := hcreate.passes
  have hfirst := hcreate.first
  have hdat₁ : fs₁.su.nblockDat ≤ 4096 := by rw [heffect.su_eq]; exact hdat
  constructor
  · intro fuel e fs' hrun
    rcases migratePaths_cases hrun with
      ⟨⟨n, hn, hlookup⟩, -⟩ | ⟨-, m, fs₂, -, hmknod', hend⟩
    · rw [h.absent] at hlookup
      cases hlookup
      exact absurd rfl hn
    · rw [hmknod] at hmknod'
      cases hmknod'
      rcases hend with ⟨hopens, -, -⟩ | ⟨-, reads, rfl, hloop⟩
      · rw [h.opens] at hopens
        cases hopens
      · obtain ⟨k, heof, hbefore, rfl, -⟩ := migrateLoop_done hloop
        rw [h.delivers.length_eq heof hbefore, h.delivers.bytes]
  · obtain ⟨fs₂, hcopy⟩ := (migrateBytes_new_iff heffect.wellFormed hdat₁ hfirst.1 hnew).mpr
      ⟨h.length_le, by
        rw [heffect.length_free hwf hpasses.lt hpasses.dir hfirst.1 hfirst.2.1]
        exact h.room⟩
    have heof : host.reads (0 + D.length) = .eof := by rw [Nat.zero_add, h.delivers.eof]
    have hloop : migrateLoop host x (D.length + 1) 0 0 fs₁ = .ok (some (D.map .byte, fs₂)) := by
      rw [migrateLoop_of_eof heof (fun j hj => h.delivers.before hj) (Nat.lt_succ_self D.length),
        h.delivers.chars, h.delivers.bytes, hcopy]
      rfl
    refine ⟨fs₂, ?_, ((holds_nil hfirst.1 hnew).migrateBytes heffect.wellFormed hdat₁ hcopy).1⟩
    rw [Mkfs.migratePaths, h.absent, ok_bind, if_neg (not_not_intro rfl), hmknod, ok_bind,
      if_neg hx, h.opens, if_neg (by decide), hloop]
    rfl

/-- `do_migrate` with two paths is as it should be if and only if the path leads to an inode
already, or the host file can be migrated to it. -/
theorem migratePaths_iff :
    ((∀ fuel e fs', migratePaths host fuel fs src dst = .ok (some (e, fs')) → e.Failed →
      fs'.disk = fs.disk) ∧
      ∃ fuel e fs', migratePaths host fuel fs src dst = .ok (some (e, fs')) ∧
        ∀ inum reads, e = .copied inum reads → Holds fs' inum (delivered reads)) ↔
      (∃ n, n ≠ nullInum ∧ fsLookup fs (some dst) = .ok (n, fs)) ∨
        ∃ D name parent n x, host.CanMigrate fs src dst D name parent n x := by
  constructor
  · rintro ⟨hatomic, fuel, e, fs', hrun, -⟩
    rcases migratePaths_cases hrun with ⟨hexists, -⟩ | ⟨hlookup, m, fs₁, hm, hmknod, hend⟩
    · exact .inl hexists
    · obtain ⟨name, parent, n, hcreate, heffect, hnew⟩ := fsMknod_created hwf hnull hmknod hm
      have hdat₁ : fs₁.su.nblockDat ≤ 4096 := by rw [heffect.su_eq]; exact hdat
      have hholds := holds_nil hcreate.first.1 hnew
      rcases hend with ⟨-, rfl, rfl⟩ | ⟨hopens, reads, rfl, hloop⟩
      · exact absurd (hatomic fuel _ _ hrun trivial)
          (disk_ne_of_created hwf hnull hmknod hm rfl hholds.stored.reg)
      · obtain ⟨k, heof, hbefore, rfl, hcopy⟩ := migrateLoop_done hloop
        obtain ⟨hholds', hsu⟩ := hholds.migrateBytes heffect.wellFormed hdat₁ hcopy
        have hfine : .error ∉ (List.range' 0 k).map host.reads := fun herror =>
          absurd (hatomic fuel _ _ hrun herror)
            (disk_ne_of_created hwf hnull hmknod hm hsu hholds'.stored.reg)
        obtain ⟨hlen, hroom⟩ :=
          (migrateBytes_new_iff heffect.wellFormed hdat₁ hcreate.first.1 hnew).mp ⟨fs', hcopy⟩
        rw [heffect.length_free hwf hcreate.passes.lt hcreate.passes.dir hcreate.first.1
          hcreate.first.2.1]
          at hroom
        have hdelivers := delivers_of_reads heof hbefore hfine
        exact .inr ⟨_, name, parent, n, m, hlookup, hcreate, hopens, hdelivers, hlen, hroom⟩
  · rintro (⟨n, hn, hlookup⟩ | ⟨D, name, parent, n, x, hcan⟩)
    · have hrun (fuel : ℕ) : migratePaths host fuel fs src dst =
          .ok (some (.message "migrate: %s: File exists\n" dst, fs)) := by
        rw [migratePaths, hlookup, ok_bind, if_pos hn]
      refine ⟨fun fuel e fs' h hfailed => ?_, 0, _, fs, hrun 0, fun inum reads h => ?_⟩
      · rw [hrun fuel] at h
        cases h
        exact hfailed.elim
      · cases h
    · obtain ⟨hend, fs₁, hrun, hholds⟩ := hcan.migratePaths hwf hnull hdat
      refine ⟨fun fuel e fs' h hfailed => ?_, _, _, fs₁, hrun, fun inum reads h => ?_⟩
      · rw [hend fuel e fs' h] at hfailed
        obtain ⟨c, -, hc⟩ := List.mem_map.mp hfailed
        cases hc
      · cases h
        rwa [delivered_bytes]

end Migrate

/-! ## The other commands -/

/-- If the run has ended in a failure, the disk is as before. -/
def Atomic (fs : Fs) (run : Except Fault (Option (Ending × Fs))) : Prop :=
  ∀ e fs', run = .ok (some (e, fs')) → e.Failed → fs'.disk = fs.disk

/-- A failure in the same state. -/
theorem atomic_same (e : Ending) : Atomic fs (.ok (some (e, fs))) := by
  intro e' fs' h _
  cases h
  rfl

/-- An ending that is no failure may change the disk. -/
theorem atomic_of_not_failed {e : Ending} (he : ¬e.Failed) (fs' : Fs) :
    Atomic fs (.ok (some (e, fs'))) := by
  intro e' fs'' h hfailed
  cases h
  exact absurd hfailed he

/-- Nothing is claimed of a command whose fuel is spent. -/
theorem atomic_unfinished : Atomic fs (.ok none) := by
  intro e fs' h
  cases h

/-- Nothing is claimed of a command that ends in a fault. -/
theorem atomic_fault (f : Fault) : Atomic fs (.error f) := by
  intro e fs' h
  cases h

/-- A run is atomic if what follows its first step is, for every result of the step. -/
theorem atomic_bind {α : Type} {x : Except Fault α} {f : α → Except Fault (Option (Ending × Fs))}
    (h : ∀ a, x = .ok a → Atomic fs (f a)) : Atomic fs (x >>= f) := by
  intro e fs' hrun
  obtain ⟨a, ha, hrest⟩ := bind_eq_ok.mp hrun
  exact h a ha e fs' hrest

/-- `do_ls` never changes the disk. -/
theorem doLs_atomic (s : CString) : Atomic fs (doLs host fuel fs s) := by
  rw [doLs]
  split
  · exact atomic_same _
  · apply atomic_bind
    intro l _
    split
    · exact atomic_of_not_failed id _
    · apply atomic_bind
      intro t _
      cases t with
      | none => exact atomic_unfinished
      | some t => exact atomic_of_not_failed id _

/-- A host file that cannot be opened is noticed before anything is read. -/
theorem retrieve_notOpened {path : CString} {opens : Bool}
    (h : retrieve fuel fs path opens = .ok (.notOpened, fs')) : fs' = fs := by
  rw [retrieve, bind_eq_ok] at h
  obtain ⟨l, hlookup, h⟩ := h
  split at h
  · cases h
  · split at h
    · cases h
      exact fsLookup_keeps hlookup
    · rw [bind_eq_ok] at h
      obtain ⟨⟨bytes, fs₁⟩, -, h⟩ := h
      cases bytes with
      | none => cases h
      | some bytes => cases h

/-- `do_retrieve` never changes the disk. -/
theorem doRetrieve_atomic (s : CString) : Atomic fs (doRetrieve host fuel fs s) := by
  rw [doRetrieve]
  split
  · exact atomic_same _
  · split
    · exact atomic_same _
    · apply atomic_bind
      intro r hretrieve
      obtain ⟨ret, fs₁⟩ := r
      cases ret with
      | notFound => exact atomic_of_not_failed id _
      | notOpened =>
        rw [retrieve_notOpened hretrieve]
        exact atomic_same _
      | unfinished => exact atomic_unfinished
      | copied bytes => exact atomic_of_not_failed id _

/-- `do_read` checks its arguments before it does anything else. -/
theorem doRead_atomic (w : Bool) (s : CString) : Atomic fs (doRead w host fs s) := by
  rw [doRead]
  split
  · exact atomic_same _
  · split
    · exact atomic_same _
    · dsimp only
      split
      · exact atomic_same _
      · apply atomic_bind
        intro l _
        split
        · exact atomic_of_not_failed id _
        · split
          · apply atomic_bind
            intro r _
            split
            · exact atomic_fault _
            · exact atomic_of_not_failed id _
          · apply atomic_bind
            intro r _
            split
            · exact atomic_fault _
            · exact atomic_of_not_failed id _

/-- `do_mkdir` and `do_touch` are atomic if and only if there is a path, or what the buffer holds is not
created. -/
theorem makeNode_atomic_iff (hwf : WellFormed fs) (hnull : (fs.dinode nullInum).type ≠ 0)
    (hdat : fs.su.nblockDat ≤ 4096) (usage : String) {type : ℕ} (hused : 0 < type) (htype : type ≤ 3)
    (s : CString) : Atomic fs (makeNode usage type host fs s) ↔
    (nextword s = none → fs.CreationIdle host.path) := by
  rw [makeNode]
  split
  · rename_i hnone
    rw [← fsMknod_disk_iff hwf hnull hdat hused htype]
    constructor
    · intro h _ r hr
      refine h (.usage usage) r.2 ?_ trivial
      rw [hr, ok_bind]
    · intro h
      apply atomic_bind
      intro r hr e fs' hrun _
      cases hrun
      exact h hnone r hr
  · rename_i hsome
    constructor
    · intro _ hnone
      rw [hsome] at hnone
      cases hnone
    · intro _
      apply atomic_bind
      intro r _
      exact atomic_of_not_failed id _

/-! ## All commands -/

/-- When a line does no harm: a line of `do_mkdir` or `do_touch` has a path, or its buffer does not
happen to hold one that is created; and what `do_migrate` is to store exists already, or can be
stored. -/
structure Harmless (host : Host) (fs : Fs) (line : CommandLine) : Prop where
  nodes : line.LacksPath → fs.CreationIdle host.path
  migrates : ∀ src dst, line.Migrates src dst →
    (∃ n, n ≠ nullInum ∧ fsLookup fs (some dst) = .ok (n, fs)) ∨
    ∃ D name parent n x, host.CanMigrate fs src dst D name parent n x

/-- A line that migrates gets to the part of `do_migrate` behind the arguments. -/
theorem command_migrates (h : line.Migrates src dst) (fuel : ℕ) :
    command host fuel fs line = migratePaths host fuel fs src dst := by
  obtain ⟨w, p, q, r, hword, hhandler, hsrc, hdst⟩ := h
  rw [command, hword]
  dsimp only
  rw [hhandler]
  dsimp only
  rw [doMigrate, hsrc]
  dsimp only
  rw [hdst]

/-- The commands that can fail in another state are those that make a node or migrate. -/
theorem command_atomic_iff (hwf : WellFormed fs) (hnull : (fs.dinode nullInum).type ≠ 0)
    (hdat : fs.su.nblockDat ≤ 4096) : (∀ fuel, Atomic fs (command host fuel fs line)) ↔
      (line.LacksPath → fs.CreationIdle host.path) ∧
        ∀ src dst, line.Migrates src dst → ∀ fuel, Atomic fs (migratePaths host fuel fs src dst) := by
  constructor
  · intro h
    constructor
    · intro ⟨w, p, hword, hmakes, hnone⟩
      have hrun := h 0
      rw [command, hword] at hrun
      dsimp only at hrun
      rcases hmakes with hmkdir | htouch
      · rw [hmkdir] at hrun
        exact (makeNode_atomic_iff hwf hnull hdat _ (by decide) (by decide) p).mp hrun hnone
      · rw [htouch] at hrun
        exact (makeNode_atomic_iff hwf hnull hdat _ (by decide) (by decide) p).mp hrun hnone
    · intro src dst hmigrates fuel
      rw [← command_migrates hmigrates]
      exact h fuel
  · intro ⟨hnodes, hmigrates⟩ fuel
    rw [command]
    cases hword : nextword line.text with
    | none => exact atomic_same _
    | some t =>
      obtain ⟨w, p⟩ := t
      dsimp only
      have hnode (hmakes : handler w = .mkdir ∨ handler w = .touch) (hnone : nextword p = none) :
          fs.CreationIdle host.path := hnodes ⟨w, p, hword, hmakes, hnone⟩
      cases hhandler : handler w with
      | ls => exact doLs_atomic p
      | migrate =>
        dsimp only
        rw [doMigrate]
        cases hsrc : nextword p with
        | none => exact atomic_same _
        | some s =>
          dsimp only
          cases hdst : nextword s.2 with
          | none => exact atomic_same _
          | some d => exact hmigrates s.1 d.1 ⟨w, p, s.2, d.2, hword, hhandler, hsrc, hdst⟩ fuel
      | retrieve => exact doRetrieve_atomic p
      | read => exact doRead_atomic false p
      | write => exact doRead_atomic true p
      | mkdir =>
        exact (makeNode_atomic_iff hwf hnull hdat _ (by decide) (by decide) p).mpr
          (hnode (.inl hhandler))
      | touch =>
        exact (makeNode_atomic_iff hwf hnull hdat _ (by decide) (by decide) p).mpr
          (hnode (.inr hhandler))
      | quit => exact atomic_same _
      | invalid => exact atomic_same _

/-- A command that fails leaves the disk as it was, and `do_migrate` ends and stores what is
delivered, if and only if the line does no harm. -/
theorem failsSafely_iff (hwf : WellFormed fs) (hnull : (fs.dinode nullInum).type ≠ 0)
    (hdat : fs.su.nblockDat ≤ 4096) : FailsSafely host fs line ↔ Harmless host fs line := by
  have hatomic : (∀ fuel, Atomic fs (command host fuel fs line)) ↔ _ := command_atomic_iff hwf hnull hdat
  constructor
  · intro h
    obtain ⟨hnodes, hmigrates⟩ := hatomic.mp h.atomic
    refine ⟨hnodes, fun src dst hline => (migratePaths_iff hwf hnull hdat).mp
      ⟨hmigrates src dst hline, ?_⟩⟩
    obtain ⟨fuel, e, fs', hrun, hholds⟩ := h.copies src dst hline
    rw [command_migrates hline] at hrun
    exact ⟨fuel, e, fs', hrun, hholds⟩
  · intro h
    have hpaths src dst (hline : line.Migrates src dst) :=
      (migratePaths_iff hwf hnull hdat).mpr (h.migrates src dst hline)
    constructor
    · exact hatomic.mpr ⟨h.nodes, fun src dst hline => (hpaths src dst hline).1⟩
    · intro src dst hline
      obtain ⟨fuel, e, fs', hrun, hholds⟩ := (hpaths src dst hline).2
      rw [← command_migrates hline] at hrun
      exact ⟨fuel, e, fs', hrun, hholds⟩

/-- A host with a file of these bytes. -/
def Host.ofFile (D : List UInt8) : Host where
  opens := fun _ => true
  reads := fun i =>
    match D[i]? with
    | some c => .byte c
    | none => .eof
  path := ⟨[], by decide⟩
  buf := fun _ => 0
  dirent := fun _ => 0
  stale := fun _ => 0

/-- The host with one file delivers its bytes. -/
theorem Host.delivers_ofFile (D : List UInt8) : (Host.ofFile D).Delivers D where
  eof := by
    rw [Host.ofFile]
    dsimp only
    rw [List.getElem?_eq_none le_rfl]
  bytes := by
    refine List.ext_getElem (by simp) fun i hi hi' => ?_
    have hlt : i < D.length := by simpa using hi'
    simp [Host.ofFile, hlt]

/-- The line "migrate b /a". -/
def migrateLine : CommandLine :=
  ⟨⟨[109, 105, 103, 114, 97, 116, 101, 32, 98, 32, 47, 97], by decide⟩, by decide⟩

/-- The line migrates `b` to `/a`. -/
theorem migrateLine_migrates : migrateLine.Migrates ⟨[98], by decide⟩ pathA :=
  ⟨⟨[109, 105, 103, 114, 97, 116, 101], by decide⟩, ⟨[32, 98, 32, 47, 97], by decide⟩,
    ⟨[32, 47, 97], by decide⟩, ⟨[], by decide⟩, by decide, by decide, by decide, by decide⟩

/-- A file of 600 bytes, which takes two blocks. -/
def twoBlocks : List UInt8 := (List.range 600).map .ofNat

/-- The file has 600 bytes. -/
theorem length_twoBlocks : twoBlocks.length = 600 := by
  rw [twoBlocks, List.length_map, List.length_range]

/-- A small partition has room for it. -/
theorem exists_canMigrate : ∃ fs₀ name parent n, mkfsMount (Fs.boot fun _ => .zero) ⟨0, 65⟩ = .ok fs₀ ∧
    FreshlyMounted fs₀ ∧
    (Host.ofFile twoBlocks).CanMigrate fs₀ ⟨[98], by decide⟩ pathA twoBlocks name parent n 2 := by
  have hp : (Partition.mk 0 65).Usable := by constructor <;> decide
  have hzero : ∀ n, (Partition.mk 0 65).Contains n → (fun _ => Block.zero : Disk) n = .zero :=
    fun _ _ => rfl
  obtain ⟨fs₀, hmount, hformatted, hsu⟩ := formatted_mkfsMount hp hzero
  have hsound := hformatted.sound
  have hdat : fs₀.su.nblockDat = 8 := by rw [hsu]; rfl
  have hcut : getname (some pathA) = .ok (some (⟨[97], by decide⟩, ⟨[slash], by decide⟩)) := by decide
  obtain ⟨fs₁, hmknod⟩ := hformatted.creates (by omega) (by omega) hcut rfl (show tReg ≤ 3 by decide)
  obtain ⟨name, parent, n, hcreate, -, -⟩ :=
    fsMknod_created hsound.wellFormed hsound.null hmknod (by decide)
  have habsent : fsLookup fs₀ (some pathA) = .ok (nullInum, fs₀) := by
    have hshort : pathA.ShortNames := shortNames_of_length (by decide)
    obtain ⟨rest, hbytes, hnone, -⟩ := fsMknod_found hsound hshort hmknod (by decide) (by decide)
    rw [fsLookup_eq hsound.wellFormed.init hsound.wellFormed.layout hsound.dirs hbytes
      (by decide) hshort, hnone]
  have hroot : n = rootInum := by
    have hname := hcreate.passes.getname
    rw [hcut] at hname
    cases hname
    have hlookup := hcreate.passes.lookup
    rw [hsound.lookup_root rfl] at hlookup
    cases hlookup
    rfl
  have hnulls : (fs₀.entryNulls n).length = 1 := by
    rw [hroot, Fs.entryNulls, Fs.need, hformatted.root]
    rfl
  refine ⟨fs₀, name, parent, n, hmount, ⟨_, _, hp, hzero, hmount⟩, habsent, hcreate, rfl,
    Host.delivers_ofFile _, ?_, ?_⟩
  · rw [length_twoBlocks]
    decide
  · rw [hnulls, hformatted.length_freeBlocks, hdat, length_twoBlocks]
    decide

/-- Migrating the file does no harm. -/
theorem failsSafely_iff_migrate : ∃ fs, Reachable fs ∧
    (FailsSafely (.ofFile twoBlocks) fs migrateLine ↔ Harmless (.ofFile twoBlocks) fs migrateLine) ∧
    FailsSafely (.ofFile twoBlocks) fs migrateLine := by
  obtain ⟨fs, name, parent, n, hmount, hfresh, hcan⟩ := exists_canMigrate
  have hsane := hfresh.sane
  have hiff : FailsSafely (.ofFile twoBlocks) fs migrateLine ↔ _ :=
    failsSafely_iff hsane.sound.wellFormed hsane.sound.null hsane.nblockDat_le
  refine ⟨fs, ⟨fs, [], hfresh, .start⟩, hiff, hiff.mpr ⟨?_, ?_⟩⟩
  · rintro ⟨w, p, hword, hhandler, -⟩
    obtain ⟨w', p', q, r, hword', hhandler', -⟩ := migrateLine_migrates
    rw [hword] at hword'
    cases hword'
    rw [hhandler'] at hhandler
    rcases hhandler with h | h <;> cases h
  · rintro src dst ⟨w, p, q, r, hword, -, hsrc, hdst⟩
    obtain ⟨w', p', q', r', hword', -, hsrc', hdst'⟩ := migrateLine_migrates
    rw [hword] at hword'
    cases hword'
    rw [hsrc] at hsrc'
    cases hsrc'
    rw [hdst] at hdst'
    cases hdst'
    exact .inr ⟨_, _, _, _, _, hcan⟩

/-- The line "touch". -/
def touchLine : CommandLine := ⟨⟨[116, 111, 117, 99, 104], by decide⟩, by decide⟩

/-- A host without files, with this path left in the buffers for one. -/
def Host.withPath (path : CString) : Host :=
  ⟨fun _ => false, fun _ => .eof, path, fun _ => 0, fun _ => 0, fun _ => 0⟩

/-- There is no path behind the word. -/
theorem nextword_touchLine : nextword touchLine.text = some (touchLine.text, ⟨[], by decide⟩) := by
  decide

/-- A call of `do_touch` without a path creates the file that the buffer happens to name. -/
theorem not_failsSafely : ∃ fs, Reachable fs ∧ ¬FailsSafely (.withPath pathA) fs touchLine := by
  obtain ⟨fs, fs₁, hfresh, hmknod, -, hnew, -⟩ := exists_reachable_mknod
  have hsane := hfresh.sane
  refine ⟨fs, ⟨fs, [], hfresh, .start⟩, fun h => ?_⟩
  have hrun : command (.withPath pathA) 0 fs touchLine =
      .ok (some (.usage "usage: touch <path>\n", fs₁)) := by
    rw [command, nextword_touchLine]
    change doTouch (.withPath pathA) fs ⟨[], _⟩ = _
    rw [doTouch, makeNode]
    change (fsMknod fs (some pathA) tReg >>= fun m => _) = _
    rw [hmknod, ok_bind]
  exact disk_ne_of_created hsane.sound.wellFormed hsane.sound.null hmknod (by decide) rfl
    (by rw [hnew]) (h.atomic 0 _ fs₁ hrun trivial)

end Hobby386.Mkfs
