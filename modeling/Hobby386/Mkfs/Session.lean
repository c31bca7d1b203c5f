import Hobby386.Mkfs.Failures
import Hobby386.Mkfs.ImageFile
import Hobby386.Fs.OtherBlocks

/-!
# Sessions of `mkfs`

A session is what is done to an image: command lines, each with its own answers of the host, and new
starts of `mkfs` on what is on the disk. Every command that ends has made a run of calls of the file
system, so sessions keep what runs keep. Nothing is said about a command that ends in a panic, and
what it has done to the image before.
-/

namespace Hobby386.Mkfs

open Runs

variable {α : Type} {host : Host} {fs fs' : Fs} {inum fuel i off : ℕ} {W : ℕ → Prop} {line : CommandLine}

/-! ## Commands are runs of calls -/

/-- If the computation ends, it has made a run of calls that write to files of `W` only. -/
def Ran (W : ℕ → Prop) (fs : Fs) (x : Except Fault (Option (α × Fs))) : Prop :=
  ∀ a fs', x = .ok (some (a, fs')) → ∃ t, RunOn W fs t fs'

/-- A computation that leaves the state alone is an empty run. -/
theorem ran_same (a : α) : Ran W fs (.ok (some (a, fs))) := by
  intro a' fs' h
  cases h
  exact ⟨[], .start⟩

/-- Nothing is claimed of a computation whose fuel is spent. -/
theorem ran_unfinished : Ran W fs (.ok none : Except Fault (Option (α × Fs))) := by
  intro a fs' h
  cases h

/-- Nothing is claimed of a computation that ends in a fault. -/
theorem ran_fault (f : Fault) : Ran W fs (.error f : Except Fault (Option (α × Fs))) := by
  intro a fs' h
  cases h

/-- What follows a call. -/
theorem ran_call {c : Call} {ret : ℤ} {fs₁ : Fs} {x : Except Fault (Option (α × Fs))} (hon : c.On W fs)
    (h : c.exec fs = .ok (ret, fs₁)) (hrest : Ran W fs₁ x) : Ran W fs x := by
  intro a fs' hx
  obtain ⟨t, hrun⟩ := hrest a fs' hx
  have hfirst : RunOn W fs [(c, ret)] fs₁ := Run.start.call hon h
  exact ⟨_, hfirst.trans hrun⟩

/-- What follows a run. -/
theorem ran_run {fs₁ : Fs} {t : List (Call × ℤ)} {x : Except Fault (Option (α × Fs))}
    (h : RunOn W fs t fs₁) (hrest : Ran W fs₁ x) : Ran W fs x := by
  intro a fs' hx
  obtain ⟨t', hrun⟩ := hrest a fs' hx
  exact ⟨_, h.trans hrun⟩

/-- A step that does not touch the file system goes in front of a run. -/
theorem ran_bind {β : Type} {x : Except Fault β} {f : β → Except Fault (Option (α × Fs))}
    (h : ∀ b, x = .ok b → Ran W fs (f b)) : Ran W fs (x >>= f) := by
  intro a fs' hx
  obtain ⟨b, hb, hrest⟩ := bind_eq_ok.mp hx
  exact h b hb a fs' hrest

/-- The result of a run may be changed afterwards. -/
theorem ran_map {β : Type} {x : Except Fault (Option (β × Fs))} (f : β × Fs → α) (h : Ran W fs x) :
    Ran W fs (x >>= fun r => .ok (r.map fun t => (f t, t.2))) := by
  intro a fs' hx
  obtain ⟨r, hr, hrest⟩ := bind_eq_ok.mp hx
  cases r with
  | none => cases hrest
  | some t =>
    cases hrest
    exact h t.1 t.2 hr

section Calls

variable {x : Except Fault (Option (α × Fs))} {buf : Memory} {sz : ℤ} {path : Option CString}

/-- A lookup goes in front of a run. -/
theorem ran_lookup {r : ℕ × Fs} (h : fsLookup fs path = .ok r) (hrest : Ran W r.2 x) : Ran W fs x :=
  ran_call (c := .lookup path) trivial (by rw [Call.exec, h, ok_bind]) hrest

/-- A read goes in front of a run. -/
theorem ran_read {r : ℤ × Memory × Fs} (h : fsRead fs inum buf sz off = .ok r) (hrest : Ran W r.2.2 x) :
    Ran W fs x :=
  ran_call (c := .read inum buf sz off) trivial (by rw [Call.exec, h, ok_bind]) hrest

/-- A creation of a file or directory goes in front of a run. -/
theorem ran_mknod {type : ℕ} {r : ℕ × Fs} (htype : type = tReg ∨ type = tDir)
    (h : fsMknod fs path type = .ok r) (hrest : Ran W r.2 x) : Ran W fs x :=
  ran_call (c := .mknod path type) htype (by rw [Call.exec, h, ok_bind]) hrest

/-- A write to an inode that may be written to goes in front of a run. -/
theorem ran_write {r : ℤ × Fs} (hon : (Call.write inum buf sz off).On W fs)
    (h : fsWrite fs inum buf sz off = .ok r) (hrest : Ran W r.2 x) : Ran W fs x :=
  ran_call hon h hrest

end Calls

/-- Listing entries is a run. -/
theorem lsEntries_ran : Ran W fs (lsEntries host inum fuel off fs) := by
  induction fuel generalizing off fs with
  | zero => exact ran_unfinished
  | succ fuel ih =>
    rw [lsEntries]
    apply ran_bind
    intro r hread
    apply ran_read hread
    split
    · exact ran_same _
    · exact ran_map _ ih

/-- `do_ls` is a run. -/
theorem doLs_ran (s : CString) : Ran W fs (doLs host fuel fs s) := by
  rw [doLs]
  split
  · exact ran_same _
  · apply ran_bind
    intro l hlookup
    apply ran_lookup hlookup
    split
    · exact ran_same _
    · exact ran_map (fun t => Ending.listed t.1) lsEntries_ran

/-- The copying loop writes to the file it is for. -/
theorem migrateLoop_ran (hsound : Sound fs) (hinum : inum < 200) (hreg : (fs.dinode inum).type = tReg)
    (hW : W inum) (hoff : off < 4294967296) : Ran W fs (migrateLoop host inum fuel i off fs) := by
  induction fuel generalizing i off fs with
  | zero => exact ran_unfinished
  | succ fuel ih =>
    rw [migrateLoop]
    split
    · exact ran_same _
    · apply ran_bind
      intro r hwrite
      have hon : (Call.write inum (.ofList [host.char i]) 1 off).On W fs :=
        ⟨⟨by rw [hsound.wellFormed.layout.ninodes]; exact hinum, hreg, hoff⟩, hW⟩
      have heffect := hsound.exec_effect hon.onFiles hwrite
      apply ran_write hon hwrite
      split
      · exact ran_fault _
      · have hreg' : (r.2.dinode inum).type = tReg := by
          rw [heffect.type_kept hinum (by rw [hreg]; decide), hreg]
        exact ran_map _ (ih (hsound.call hon.onFiles heffect) hreg' (u32_lt _))

/-- `do_migrate` writes to the file it has created. -/
theorem migratePaths_ran (hsound : Sound fs) (hfree : ∀ x, (fs.dinode x).type = 0 → W x)
    (src dst : CString) :
    Ran W fs (migratePaths host fuel fs src dst) := by
  rw [migratePaths]
  apply ran_bind
  intro l hlookup
  have hsame : l.2 = fs := fsLookup_keeps hlookup
  apply ran_lookup hlookup
  rw [hsame]
  split
  · exact ran_same _
  · apply ran_bind
    intro m hmknod
    apply ran_mknod (.inl rfl) hmknod
    split
    · exact ran_fault _
    · rename_i hm
      split
      · exact ran_same _
      · obtain ⟨hlt, -, hnew, hdi⟩ := fsMknod_new hsound hmknod hm
        have hreg : (m.2.dinode m.1).type = tReg := by rw [hdi]
        exact ran_map (fun t => Ending.copied m.1 t.1)
          (migrateLoop_ran (hsound.mknod hmknod) hlt hreg (hfree m.1 hnew)
            (show 0 < 4294967296 by decide))

/-- `do_migrate` is a run that writes to the new inode only. -/
theorem doMigrate_ran (hsound : Sound fs) (hfree : ∀ x, (fs.dinode x).type = 0 → W x) (s : CString) :
    Ran W fs (doMigrate host fuel fs s) := by
  rw [doMigrate]
  split
  · exact ran_same _
  · split
    · exact ran_same _
    · exact migratePaths_ran hsound hfree _ _

/-- The copying loop of `do_retrieve` is a run of reads. -/
theorem retrieveBytes_run {r : Option (List UInt8) × Fs} (h : retrieveBytes inum fuel off fs = .ok r) :
    ∃ t, RunOn W fs t r.2 := by
  induction fuel generalizing off fs r with
  | zero =>
    cases h
    exact ⟨[], .start⟩
  | succ fuel ih =>
    rw [retrieveBytes, bind_eq_ok] at h
    obtain ⟨b, hread, h⟩ := h
    have hcall : RunOn W fs [(.read inum (fun _ => 0) 1 off, b.1)] b.2.2 :=
      Run.start.call trivial (by rw [Call.exec, hread, ok_bind])
    split at h
    · cases h
      exact ⟨_, hcall⟩
    · rw [bind_eq_ok] at h
      obtain ⟨rest, hrest, h⟩ := h
      cases h
      obtain ⟨t, hrun⟩ := ih hrest
      exact ⟨_, hcall.trans hrun⟩

/-- A retrieval is a run of lookups and reads. -/
theorem retrieve_run {path : CString} {opens : Bool} {r : Retrieval × Fs}
    (h : retrieve fuel fs path opens = .ok r) :
    ∃ t, RunOn W fs t r.2 := by
  rw [retrieve, bind_eq_ok] at h
  obtain ⟨l, hlookup, h⟩ := h
  have hcall : RunOn W fs [(.lookup (some path), (l.1 : ℤ))] l.2 :=
    Run.start.call trivial (by rw [Call.exec, hlookup, ok_bind])
  split at h
  · cases h
    exact ⟨_, hcall⟩
  · split at h
    · cases h
      exact ⟨_, hcall⟩
    · rw [bind_eq_ok] at h
      obtain ⟨b, hbytes, h⟩ := h
      obtain ⟨t, hrun⟩ := retrieveBytes_run hbytes
      split at h <;> cases h <;> exact ⟨_, hcall.trans hrun⟩

/-- `do_retrieve` is a run. -/
theorem doRetrieve_ran (s : CString) : Ran W fs (doRetrieve host fuel fs s) := by
  rw [doRetrieve]
  split
  · exact ran_same _
  · split
    · exact ran_same _
    · apply ran_bind
      intro r hretrieve
      obtain ⟨t, hrun⟩ := retrieve_run hretrieve
      apply ran_run hrun
      split
      · exact ran_same _
      · exact ran_same _
      · exact ran_unfinished
      · exact ran_same _

/-- The low 32 bits of a number. -/
theorem bits32_lt (n : ℤ) : bits32 n < 4294967296 := by
  rw [bits32]
  omega

/-- What `do_read` writes to, if it writes at all, is a regular file of `W`. -/
theorem doRead_ran (hsound : Sound fs) {w : Bool} {s : CString}
    (hon : w = true → ∀ path q n fs₁, nextword s = some (path, q) →
      fsLookup fs (some path) = .ok (n, fs₁) →
      n ≠ nullInum → (fs.dinode n).type = tReg ∧ W n) : Ran W fs (doRead w host fs s) := by
  rw [doRead]
  split
  · exact ran_same _
  · rename_i path q hpath
    split
    · exact ran_same _
    · dsimp only
      split
      · exact ran_same _
      · apply ran_bind
        intro l hlookup
        have hsame : l.2 = fs := fsLookup_keeps hlookup
        apply ran_lookup hlookup
        rw [hsame]
        split
        · exact ran_same _
        · rename_i hn
          split
          · rename_i hw
            obtain ⟨hreg, hWn⟩ := hon hw path q l.1 l.2 hpath hlookup hn
            have hwf := hsound.wellFormed
            obtain ⟨tail, -, -, -, hresolve⟩ :=
              resolve_of_fsLookup hwf.init hwf.layout hsound.dirs hlookup hn
            have hlt : l.1 < 200 := hresolve ▸ resolve_lt hsound.dirs (by decide) _
            apply ran_bind
            intro r hwrite
            have hinum : l.1 < fs.su.ninodes := by rw [hwf.layout.ninodes]; exact hlt
            refine ran_write ⟨⟨hinum, hreg, bits32_lt _⟩, hWn⟩ hwrite ?_
            split
            · exact ran_fault _
            · exact ran_same _
          · apply ran_bind
            intro r hread
            apply ran_read hread
            split
            · exact ran_fault _
            · exact ran_same _

/-- `do_touch` and `do_mkdir` are runs. -/
theorem makeNode_ran (usage : String) {type : ℕ} (htype : type = tReg ∨ type = tDir) (s : CString) :
    Ran W fs (makeNode usage type host fs s) := by
  rw [makeNode]
  split
  · apply ran_bind
    intro m hmknod
    exact ran_mknod htype hmknod (ran_same _)
  · apply ran_bind
    intro m hmknod
    exact ran_mknod htype hmknod (ran_same _)

/-- Where a line of `do_read` writes to is a regular file of `W`. -/
def CommandLine.WritesOn (W : ℕ → Prop) (fs : Fs) (line : CommandLine) : Prop :=
  ∀ w p path q n fs₁, nextword line.text = some (w, p) → handler w = .write →
    nextword p = some (path, q) →
    fsLookup fs (some path) = .ok (n, fs₁) → n ≠ nullInum → (fs.dinode n).type = tReg ∧ W n

/-- A command that ends has made a run of calls. It writes to free inodes, which it has allocated,
and where the line says. -/
theorem command_ran (hsound : Sound fs) (hfree : ∀ x, (fs.dinode x).type = 0 → W x)
    (hline : line.WritesOn W fs) :
    Ran W fs (command host fuel fs line) := by
  rw [command]
  split
  · exact ran_same _
  · rename_i w p hword
    split
    · exact doLs_ran p
    · exact doMigrate_ran hsound hfree p
    · exact doRetrieve_ran p
    · exact doRead_ran hsound fun h => absurd h (by decide)
    · rename_i hhandler
      exact doRead_ran hsound fun _ path q n fs₁ => hline w p path q n fs₁ hword hhandler
    · exact makeNode_ran _ (.inr rfl) p
    · exact makeNode_ran _ (.inl rfl) p
    · exact ran_same _
    · exact ran_same _

/-! ## Sessions -/

/-- What is done to an image: a command line is given, or `mkfs` is started anew. -/
inductive Turn
  | command (host : Host) (fuel : ℕ) (line : CommandLine)
  | start

/-- Taking a turn on partition `p`, with the ending of a command. A loop without an end is an error
without a fault. A command that panics has no state behind it: its session has ended. -/
def Turn.exec (p : Partition) : Turn → Fs → Except (Option Fault) (Option Ending × Fs)
  | .command host fuel line, fs =>
    match Mkfs.command host fuel fs line with
    | .ok (some r) => .ok (some r.1, r.2)
    | .ok none => .error none
    | .error f => .error (some f)
  | .start, fs =>
    match mkfsMount (Fs.boot fs.disk) p with
    | .ok fs' => .ok (none, fs')
    | .error f => .error (some f)

/-- Lines write to regular files of `W` only. -/
def Turn.On (W : ℕ → Prop) (fs : Fs) : Turn → Prop
  | .command _ _ line => line.WritesOn W fs
  | .start => True

/-- Sessions on partition `p`. -/
abbrev Session (p : Partition) (W : ℕ → Prop) : Fs → List (Turn × Option Ending) → Fs → Prop :=
  Run (Turn.exec p) fun _ => Turn.On W

/-- The image of partition `p` between the turns. -/
structure Image (p : Partition) (fs : Fs) : Prop where
  sane : Sane fs
  tree : Tree fs
  mounted : Mounted p fs
  su_eq : fs.su = newSuper p

/-- What may not be written to are regular files. -/
def Protects (W : ℕ → Prop) (fs : Fs) : Prop := ∀ x, ¬W x → x < 200 ∧ (fs.dinode x).type = tReg

variable {p : Partition} {disk : Disk} {fs₀ fs₁ fs₂ : Fs} {t : List (Turn × Option Ending)}

/-- Free inodes are not protected. -/
theorem Protects.free (h : Protects W fs) (x : ℕ) (hfree : (fs.dinode x).type = 0) : W x := by
  by_contra hW
  rw [(h x hW).2] at hfree
  exact absurd hfree (by decide)

/-- What is protected stays protected in a file system that keeps it. -/
theorem Protects.kept (h : Protects W fs) (hkept : FilesKept W fs fs') : Protects W fs' := by
  intro x hW
  obtain ⟨hlt, hreg⟩ := h x hW
  exact ⟨hlt, by rw [(hkept.files x hlt hreg hW).dinode, hreg]⟩

/-- The blocks outside the partition are outside the file system. -/
theorem Image.outside (h : Image p fs) (hp : p.Usable) {b : ℕ} (hb : ¬p.Contains b) :
    fs.su.Outside b := by
  have hlow := hp.nonempty
  rw [h.su_eq, newSuper_eq hp, Superblock.Outside]
  rw [Partition.Contains] at hb
  simp only
  omega

/-- A run of calls keeps the image. -/
theorem Image.run (h : Image p fs) (hp : p.Usable) {calls : List (Call × ℤ)}
    (hrun : RunOn W fs calls fs') :
    Image p fs' := by
  have hkept := h.sane.sound.keeps_run hrun
  obtain ⟨hsane, htree⟩ := h.sane.run_on h.tree hrun
  have hfirst : fs.su.Outside p.startlba := by
    rw [h.su_eq, newSuper_eq hp, Superblock.Outside]
    simp only
    omega
  refine ⟨hsane, htree, ⟨hsane.sound.wellFormed.init, ?_, ?_⟩, ?_⟩
  · rw [hkept.outside _ hfirst, hkept.su_eq, h.mounted.super]
  · rw [hkept.su_eq, h.mounted.magic]
  · rw [hkept.su_eq, h.su_eq]

/-- A turn keeps the image. -/
theorem Image.turn (h : Image p fs) (hp : p.Usable) (hW : Protects W fs) {turn : Turn}
    (hon : turn.On W fs) {e : Option Ending} (hexec : turn.exec p fs = .ok (e, fs')) : Image p fs' ∧
    RunKeeps W fs fs' := by
  cases turn with
  | command host fuel line =>
    rw [Turn.exec] at hexec
    split at hexec
    · rename_i r hcommand
      cases hexec
      obtain ⟨calls, hrun⟩ := command_ran h.sane.sound hW.free hon r.1 r.2 hcommand
      exact ⟨h.run hp hrun, h.sane.sound.keeps_run hrun⟩
    · cases hexec
    · cases hexec
  | start =>
    have hsame : SameStore fs { fs with printed := [] } := rfl
    rw [Turn.exec, h.mounted.mkfsMount_eq] at hexec
    cases hexec
    refine ⟨⟨⟨h.sane.sound.of_sameStore hsame, h.sane.noLeak, h.sane.nblockDat_le⟩, ?_,
      ⟨h.mounted.init, h.mounted.super, h.mounted.magic⟩, h.su_eq⟩, .of_sameStore hsame⟩
    exact ⟨h.tree.distinct, h.tree.names, h.tree.links, h.tree.linkcnt⟩

/-- A session keeps the image, and what runs on `W` keep. -/
theorem Image.session (h : Image p fs) (hp : p.Usable) (hW : Protects W fs)
    (hrun : Session p W fs t fs') :
    Image p fs' ∧ RunKeeps W fs fs' := by
  refine hrun.preserves (I := fun fs₁ => Image p fs₁ ∧ RunKeeps W fs fs₁) ?_
    ⟨h, .of_sameStore (.refl fs)⟩
  intro _ fs₁ turn e fs₂ ⟨himage, hkept⟩ hon hexec
  obtain ⟨himage', hturn⟩ := himage.turn hp (hW.kept hkept.filesKept) hon hexec
  exact ⟨himage', hkept.trans hturn⟩

/-- A partition of zeros becomes an image. -/
theorem image_mkfsMount (hp : p.Usable) (hzero : ∀ n, p.Contains n → disk n = .zero)
    (h : mkfsMount (Fs.boot disk) p = .ok fs₀) : Image p fs₀ := by
  have hfresh : FreshlyMounted fs₀ := ⟨disk, p, hp, hzero, h⟩
  obtain ⟨fs₁, hmount, -, hsu⟩ := formatted_mkfsMount hp hzero
  rw [h] at hmount
  cases hmount
  exact ⟨hfresh.sane, hfresh.formatted.1.tree, mounted_of_mkfsMount h, hsu⟩

variable {src dst : CString} {n : ℕ} {reads : List HostRead} {D : List UInt8}

/-- The second argument of a line fits a path buffer. -/
theorem CommandLine.Migrates.fits (h : line.Migrates src dst) : dst.bytes.length < maxPath := by
  obtain ⟨w, p, q, r, hword, -, hsrc, hdst⟩ := h
  have hp := (line.word_fits le_rfl hword).2
  have hq := (line.word_fits hp hsrc).2
  have hfits := (line.word_fits hq hdst).1
  simp only [maxPath]
  omega

/-- A line that migrates writes only to what it creates. -/
theorem CommandLine.Migrates.writesOn (h : line.Migrates src dst) : line.WritesOn W fs := by
  obtain ⟨w, q, r, s, hword, hhandler, -, -⟩ := h
  intro w' p' path q' n' fs' hword' hhandler'
  rw [hword] at hword'
  cases hword'
  rw [hhandler] at hhandler'
  cases hhandler'

/-- What `do_migrate` has done when it has copied a file without an error of the host. -/
theorem migratePaths_copied (hsound : Sound fs) (hdat : fs.su.nblockDat ≤ 4096)
    (hlen : dst.bytes.length < maxPath)
    (h : migratePaths host fuel fs src dst = .ok (some (.copied n reads, fs₁)))
    (hfine : .error ∉ reads) :
    n ≠ nullInum ∧ fsLookup fs₁ (some dst) = .ok (n, fs₁) ∧ Holds fs₁ n (delivered reads) := by
  have hwf := hsound.wellFormed
  rcases migratePaths_cases h with ⟨⟨m, hm, hlookup⟩, -⟩ | ⟨hlookup, m, fs₂, hm, hmknod, hend⟩
  · rw [migratePaths, hlookup, ok_bind, if_pos hm] at h
    cases h
  · have hroot : dst.bytes ≠ [slash] := by
      intro hroot
      rw [hsound.lookup_root hroot] at hlookup
      cases hlookup
    have hsound₂ := hsound.mknod hmknod
    obtain ⟨hlt, -, -, hdi⟩ := fsMknod_new hsound hmknod hm
    have hsu : fs₂.su = fs.su :=
      (hsound.exec_effect (c := .mknod (some dst) tReg) trivial (exec_mknod hmknod)).su_eq
    rcases hend with ⟨-, hopen, -⟩ | ⟨-, reads', hcopied, hloop⟩
    · cases hopen
    · cases hcopied
      obtain ⟨k, heof, hbefore, rfl, hbytes⟩ := migrateLoop_done hloop
      have hdelivers := delivers_of_reads heof hbefore hfine
      have hreads := hdelivers.bytes
      rw [List.length_map, List.length_range'] at hreads
      rw [hreads, delivered_bytes]
      obtain ⟨calls, hrun⟩ := migrateLoop_ran (W := fun _ => True) hsound₂ hlt (by rw [hdi]) trivial
        (show 0 < 4294967296 by decide) _ _ hloop
      have hsound₁ := hsound₂.run (RunOn.fileRun hrun)
      exact ⟨hm, hsound.lookup_created hmknod hm hroot hlen hsound₁ (hsound₂.keeps_run hrun),
        ((holds_nil hlt hdi).migrateBytes hsound₂.wellFormed (hsu ▸ hdat) hbytes).1⟩

/-- A line that migrates a file without an error of the host leaves it under its path. -/
theorem Image.migrated (h : Image p fs) (hp : p.Usable) (hline : line.Migrates src dst)
    (hend : command host fuel fs line = .ok (some (.copied n reads, fs₁))) (hfine : .error ∉ reads) :
    n ≠ nullInum ∧ Image p fs₁ ∧ fsLookup fs₁ (some dst) = .ok (n, fs₁) ∧
      Holds fs₁ n (delivered reads) := by
  have hturn : Turn.exec p (.command host fuel line) fs = .ok (some (.copied n reads), fs₁) := by
    rw [Turn.exec, hend]
  rw [command_migrates hline] at hend
  obtain ⟨hn, hlookup, hholds⟩ :=
    migratePaths_copied h.sane.sound h.sane.nblockDat_le hline.fits hend hfine
  have hon : (Turn.command host fuel line).On (fun _ => True) fs := hline.writesOn
  exact ⟨hn, (h.turn hp (fun _ hW => absurd trivial hW) hon hturn).1, hlookup, hholds⟩

/-- A regular file is what may not be written to. -/
theorem protects_of_holds (h : Holds fs n D) : Protects (· ≠ n) fs := by
  intro x hx
  obtain rfl : x = n := not_not.mp hx
  exact ⟨h.stored.inum_lt, h.stored.reg⟩

end Hobby386.Mkfs
