import Hobby386.Fs.Chunks

/-!
# Copying files into and out of an image

`do_migrate` and `do_retrieve` of `mkfs`, behind the parsing of their arguments. Both copy one byte
per call. The file of the host is the list of bytes that its reads deliver.
-/

namespace Hobby386

open PointerForest Runs

/-- The copying loop of `do_migrate` over the rest of the host file. -/
def migrateBytes (inum : ℕ) : (off : ℕ) → List UInt8 → Fs → Except Fault Fs
  | _, [], fs => .ok fs
  | off, c :: cs, fs => do
    let r ← fsWrite fs inum (.ofList [c]) 1 off
    if r.1 ≠ 1 then .error .panic else migrateBytes inum (u32 (off + 1)) cs r.2

/-- `do_migrate` of a host file, `none` if it cannot be opened, to a path. -/
def migrate (fs : Fs) (host : Option (List UInt8)) (path : CString) : Except Fault Fs := do
  let l ← fsLookup fs (some path)
  if l.1 ≠ nullInum then .ok l.2
  else
    let m ← fsMknod l.2 (some path) tReg
    if m.1 = nullInum then .error .panic
    else
      match host with
      | none => .ok m.2
      | some bytes => migrateBytes m.1 0 bytes m.2

/-- The copying loop of `do_retrieve`: the bytes written to the host file, `none` when the fuel is spent
before the end. -/
def retrieveBytes (inum : ℕ) : (fuel off : ℕ) → Fs → Except Fault (Option (List UInt8) × Fs)
  | 0, _, fs => .ok (none, fs)
  | fuel + 1, off, fs => do
    let r ← fsRead fs inum (fun _ => 0) 1 off
    if r.1 = 0 then .ok (some [], r.2.2)
    else
      let rest ← retrieveBytes inum fuel (u32 (off + 1)) r.2.2
      .ok (rest.1.map (r.2.1 0 :: ·), rest.2)

/-- What `do_retrieve` has done to the host file. -/
inductive Retrieval
  | notFound
  | notOpened
  | unfinished
  | copied (bytes : List UInt8)
  deriving DecidableEq

/-- `do_retrieve` of a path to a host file, which can be opened or not. -/
def retrieve (fuel : ℕ) (fs : Fs) (path : CString) (opens : Bool) : Except Fault (Retrieval × Fs) := do
  let l ← fsLookup fs (some path)
  if l.1 = nullInum then .ok (.notFound, l.2)
  else if !opens then .ok (.notOpened, l.2)
  else
    let r ← retrieveBytes l.1 fuel 0 l.2
    match r.1 with
    | none => .ok (.unfinished, r.2)
    | some bytes => .ok (.copied bytes, r.2)

variable {fs fs' : Fs} {inum : ℕ} {D : List UInt8}

/-- A file is the concatenation of its bytes. -/
theorem flatten_bytes (D : List UInt8) : (D.map fun c => [c]).flatten = D := by
  induction D with
  | nil => rfl
  | cons c D ih =>
    rw [List.map_cons, List.flatten_cons, ih]
    rfl

/-- Migrating writes chunks of one byte. -/
theorem writeChunks_of_migrateBytes {off : ℕ} (h : migrateBytes inum off D fs = .ok fs') :
    writeChunks inum off (D.map fun c => [c]) fs = .ok (true, fs') := by
  induction D generalizing off fs with
  | nil =>
    cases h
    rfl
  | cons c D ih =>
    rw [migrateBytes, bind_eq_ok] at h
    obtain ⟨r, hwrite, h⟩ := h
    split at h
    · cases h
    · rename_i hfull
      have hwrite' : fsWrite fs inum (.ofList [c]) ([c].length : ℕ) off = .ok r := hwrite
      have hfull' : r.1 = ([c].length : ℕ) := not_not.mp hfull
      rw [List.map_cons, writeChunks, hwrite', ok_bind, if_pos hfull']
      exact ih h

/-- Retrieving reads the rest of the file. -/
theorem Holds.retrieveBytes (h : Holds fs inum D) (hwf : WellFormed fs) {fuel off : ℕ}
    (hfuel : D.length - off < fuel) (hoff : off ≤ D.length) :
    Hobby386.retrieveBytes inum fuel off fs = .ok (some (D.drop off), fs) := by
  induction fuel generalizing off with
  | zero => exact absurd hfuel (Nat.not_lt_zero _)
  | succ fuel ih =>
    rw [Hobby386.retrieveBytes]
    rcases Nat.eq_or_lt_of_le hoff with rfl | hlt
    · have hread : fsRead fs inum (fun _ => 0) 1 D.length = .ok (0, fun _ => 0, fs) :=
        h.read_end hwf (show 1 ≤ 0x7fffffff by decide) _
      rw [hread, ok_bind, if_pos rfl, List.drop_length]
    · obtain ⟨mem, hread, hmem⟩ := h.read hwf (show 1 ≤ 0x7fffffff by decide) hlt fun _ => 0
      have hmin : min 1 (D.length - off) = 1 := by omega
      rw [hmin] at hread hmem
      have hread' : fsRead fs inum (fun _ => 0) 1 off = .ok (1, mem, fs) := hread
      have hmax := h.length_le
      simp only [maxBytes, maxBlocks] at hmax
      rw [hread', ok_bind, if_neg Int.one_ne_zero, u32_of_lt (by omega), ih (by omega) (by omega),
        ok_bind, Option.map_some]
      dsimp only
      rw [hmem 0 (by decide), Nat.add_zero, List.getD_eq_getElem _ _ hlt,
        ← List.drop_eq_getElem_cons hlt]

/-- A migrated file is retrieved unchanged. -/
theorem retrieve_migrate (hsound : Sound fs) {path : CString} (hlen : path.bytes.length < maxPath)
    (hshort : path.ShortNames) (hnew : ∃ r, fsLookup fs (some path) = .ok r ∧ r.1 = nullInum)
    (h : migrate fs (some D) path = .ok fs') {fuel : ℕ} (hfuel : D.length < fuel) :
    retrieve fuel fs' path true = .ok (.copied D, fs') := by
  have hwf := hsound.wellFormed
  obtain ⟨r, hlookup, hr⟩ := hnew
  obtain ⟨m, -, hm⟩ := fsLookup_returns hwf.init hwf.layout hsound.dirs hshort
  obtain rfl : r = (m, fs) := Except.ok.inj (hlookup.symm.trans hm)
  rw [migrate, hlookup, ok_bind, if_neg (not_not_intro hr), bind_eq_ok] at h
  obtain ⟨⟨n, fs₁⟩, hmknod, h⟩ := h
  split at h
  · cases h
  · rename_i hn
    dsimp only at hmknod hn h
    have hroot : path.bytes ≠ [slash] := by
      intro hroot
      rw [hsound.lookup_root hroot] at hlookup
      cases hlookup
      exact absurd hr Nat.one_ne_zero
    obtain ⟨rest, hbytes, -, hfound⟩ := fsMknod_found hsound hshort hmknod hn hroot
    obtain ⟨hn200, -, -, hdi⟩ := fsMknod_new hsound hmknod hn
    have hsound₁ := hsound.mknod hmknod
    have hchunks := writeChunks_of_migrateBytes h
    obtain ⟨hholds, hsound'⟩ := (holds_nil hn200 hdi).writeChunks hsound₁ (fun d hd => by
      obtain ⟨c, -, rfl⟩ := List.mem_map.mp hd
      exact Nat.le_of_ble_eq_true rfl) hchunks
    rw [List.nil_append, flatten_bytes] at hholds
    obtain ⟨t, hrun⟩ := writeChunks_run hsound₁ hn200 (by rw [hdi]) (by decide) hchunks
    have hresolve : fs'.resolve rootInum (pathNames rest) = n := by
      rw [hsound₁.resolve_run hrun (hfound ▸ hn), hfound]
    rw [retrieve, fsLookup_eq hsound'.wellFormed.init hsound'.wellFormed.layout hsound'.dirs hbytes
      hlen hshort, ok_bind, hresolve, if_neg hn, if_neg (by decide),
      hholds.retrieveBytes hsound'.wellFormed (by omega) (Nat.zero_le _), ok_bind]
    rfl

end Hobby386
