import Hobby386.Fs.Durable
import Hobby386.Fs.Naming

/-!
# Writing and reading in chunks

A new file written from its start in consecutive chunks holds their concatenation, without holes.
Reading it in consecutive chunks of any size returns it, so the chunks of the two sides need not fit.
-/

namespace Hobby386

open PointerForest Runs

/-- Memory that holds a list of bytes. -/
def Memory.ofList (s : List UInt8) : Memory := fun i => s.getD i 0

/-- Consecutive calls of `fs_write` from offset `off` on, as long as they return the full size: `true` if
all of them did. -/
def writeChunks (inum : ℕ) : (off : ℕ) → List (List UInt8) → Fs → Except Fault (Bool × Fs)
  | _, [], fs => .ok (true, fs)
  | off, chunk :: chunks, fs => do
    let r ← fsWrite fs inum (.ofList chunk) chunk.length off
    if r.1 = chunk.length then
      writeChunks inum (u32 (off + chunk.length)) chunks r.2 else .ok (false, r.2)

/-- Consecutive calls of `fs_read` for `sz` bytes from offset `off` on, until one of them returns 0: the
bytes read, `none` when the fuel is spent before. -/
def readChunks (inum sz : ℕ) : (fuel off : ℕ) → Fs → Except Fault (Option (List UInt8) × Fs)
  | 0, _, fs => .ok (none, fs)
  | fuel + 1, off, fs => do
    let r ← fsRead fs inum (fun _ => 0) sz off
    if r.1 = 0 then .ok (some [], r.2.2)
    else
      let rest ← readChunks inum sz fuel (u32 (off + bits32 r.1)) r.2.2
      .ok (rest.1.map ((List.range r.1.toNat).map r.2.1 ++ ·), rest.2)

/-- The file of an inode is the given list of bytes, all of them in mapped blocks. -/
structure Holds (fs : Fs) (inum : ℕ) (D : List UInt8) : Prop where
  stored : Stored fs inum 0 D.length (.ofList D)
  size : (fs.dinode inum).size = D.length

variable {fs fs' : Fs} {inum : ℕ} {D : List UInt8}

/-- A new regular file is empty. -/
theorem holds_nil (hinum : inum < 200)
    (h : fs.dinode inum = { Dinode.zero with type := tReg, linkcnt := 1 }) :
    Holds fs inum [] where
  stored := ⟨hinum, by rw [h], fun hn => absurd hn (Nat.lt_irrefl 0),
    fun x _ hx => absurd hx (Nat.not_lt_zero x), fun x _ hx => absurd hx (Nat.not_lt_zero x)⟩
  size := by rw [h]; rfl

/-- The bytes of a file lie in the addressable range. -/
theorem Holds.length_le (h : Holds fs inum D) : D.length ≤ maxBytes := by
  rcases Nat.eq_zero_or_pos D.length with hzero | hpos
  · rw [hzero]
    exact Nat.zero_le _
  · have hlast := fs.lt_of_fileBlock (h.stored.mapped (D.length - 1) (Nat.zero_le _) (by omega))
    simp only [maxBytes, maxBlocks] at hlast ⊢
    omega

/-- A complete write at the end of the file appends to it. -/
theorem Holds.append (h : Holds fs inum D) {d : List UInt8}
    (hwritten : FileWritten fs inum (writeRequest (.ofList d) d.length D.length) d.length fs') :
    Holds fs' inum (D ++ d) := by
  have hlt := h.stored.inum_lt
  have hsize : (fs'.dinode inum).size = D.length + d.length := by
    rw [hwritten.inode, h.size]
    exact Nat.max_eq_right (Nat.le_add_right _ _)
  refine ⟨⟨hlt, by rw [hwritten.type_eq hlt, h.stored.reg], fun _ => ?_, fun x _ hx => ?_,
    fun x _ hx => ?_⟩, ?_⟩
  · rw [hsize, List.length_append, Nat.zero_add]
  · rw [Nat.zero_add, List.length_append] at hx
    rcases Nat.lt_or_ge x D.length with hold | hnew
    · have hmap := h.stored.mapped x (Nat.zero_le x) (by rwa [Nat.zero_add])
      rw [hwritten.kept _ hmap]
      exact hmap
    · exact hwritten.covered x hnew hx
  · rw [Nat.zero_add, List.length_append] at hx
    rw [Nat.sub_zero, hwritten.content x, Memory.ofList]
    rcases Nat.lt_or_ge x D.length with hold | hnew
    · have hmap := h.stored.mapped x (Nat.zero_le x) (by rwa [Nat.zero_add])
      rw [if_neg (fun hin => absurd hin.1 (Nat.not_le.mpr hold)), if_neg (fun hin => hmap hin.1),
        h.stored.content x (Nat.zero_le x) (by rwa [Nat.zero_add]), Nat.sub_zero, Memory.ofList,
        List.getD_append _ _ _ _ hold]
    · rw [if_pos ⟨hnew, hx⟩, List.getD_append_right _ _ _ _ hnew]
      rfl
  · rw [hsize, List.length_append]

/-- A complete write of a chunk. -/
theorem Holds.write (h : Holds fs inum D) (hsound : Sound fs) {d : List UInt8}
    (hlen : d.length ≤ 0x7fffffff) {r : ℤ × Fs}
    (hwrite : fsWrite fs inum (.ofList d) d.length D.length = .ok r) (hfull : r.1 = d.length) :
    Holds r.2 inum (D ++ d) := by
  have hwf := hsound.wellFormed
  have halloc := allocated_of_reg h.stored.reg h.stored.inum_lt hwf
  have hmax := h.length_le
  have hbits : bits32 (d.length : ℤ) = d.length := bits32_of_nonneg (Int.natCast_nonneg _) (by omega)
  obtain ⟨n, hn, -, hwritten⟩ := fsWrite_spec hwf halloc (by omega)
    (by simp only [maxBytes, maxBlocks] at hmax; omega) hwrite
  obtain rfl : n = d.length := Int.ofNat_inj.mp (hn.symm.trans hfull)
  rw [hbits] at hwritten
  exact h.append hwritten

/-- Writing chunks is a run of calls. -/
theorem writeChunks_run {chunks : List (List UInt8)} {off : ℕ} {b : Bool} (hsound : Sound fs)
    (hinum : inum < 200) (hreg : (fs.dinode inum).type = tReg) (hoff : off < 4294967296)
    (h : writeChunks inum off chunks fs = .ok (b, fs')) : ∃ t, FileRun fs t fs' := by
  induction chunks generalizing off fs with
  | nil =>
    cases h
    exact ⟨[], .start⟩
  | cons d chunks ih =>
    rw [writeChunks, bind_eq_ok] at h
    obtain ⟨⟨ret, fs₁⟩, hwrite, h⟩ := h
    have hfiles : (Call.write inum (.ofList d) d.length off).OnFiles fs :=
      ⟨by rw [hsound.wellFormed.layout.ninodes]; exact hinum, hreg, hoff⟩
    have heffect := hsound.exec_effect hfiles hwrite
    have hstep : FileRun fs [(.write inum (.ofList d) d.length off, ret)] fs₁ :=
      Run.start.call hfiles hwrite
    split at h
    · have hreg₁ : (fs₁.dinode inum).type = tReg := by
        rw [heffect.type_kept hinum (by rw [hreg]; decide), hreg]
      obtain ⟨t, hrun⟩ := ih (hsound.call hfiles heffect) hreg₁ (u32_lt _) h
      exact ⟨_, hstep.trans hrun⟩
    · cases h
      exact ⟨_, hstep⟩

/-- A file grows by the chunks written to its end. -/
theorem Holds.writeChunks {chunks : List (List UInt8)} (h : Holds fs inum D) (hsound : Sound fs)
    (hlen : ∀ d ∈ chunks, d.length ≤ 0x7fffffff)
    (hwrite : Hobby386.writeChunks inum D.length chunks fs = .ok (true, fs')) :
    Holds fs' inum (D ++ chunks.flatten) ∧ Sound fs' := by
  induction chunks generalizing fs D with
  | nil =>
    cases hwrite
    rw [List.flatten_nil, List.append_nil]
    exact ⟨h, hsound⟩
  | cons d chunks ih =>
    rw [Hobby386.writeChunks, bind_eq_ok] at hwrite
    obtain ⟨⟨ret, fs₁⟩, hcall, hwrite⟩ := hwrite
    split at hwrite
    · rename_i hfull
      have h₁ := h.write hsound (hlen d List.mem_cons_self) hcall hfull
      have hmax := h.length_le
      have hmax₁ := h₁.length_le
      rw [List.length_append] at hmax₁
      simp only [maxBytes, maxBlocks] at hmax hmax₁
      have hfiles : (Call.write inum (.ofList d) d.length D.length).OnFiles fs :=
        ⟨by rw [hsound.wellFormed.layout.ninodes]; exact h.stored.inum_lt, h.stored.reg, by omega⟩
      have hsound₁ := hsound.call hfiles (hsound.exec_effect hfiles hcall)
      rw [u32_of_lt (by omega), ← List.length_append] at hwrite
      have hrest := ih h₁ hsound₁ (fun e he => hlen e (List.mem_cons_of_mem d he)) hwrite
      rwa [List.flatten_cons, ← List.append_assoc]
    · cases hwrite

/-- The bytes of a chunk are the next bytes of the file. -/
theorem chunk_append {sz off : ℕ} {mem : Memory}
    (hmem : ∀ j < min sz (D.length - off), mem j = D.getD (off + j) 0) :
    (List.range (min sz (D.length - off))).map mem ++ D.drop (off + min sz (D.length - off)) =
      D.drop off := by
  have hchunk : (List.range (min sz (D.length - off))).map mem =
      (D.drop off).take (min sz (D.length - off)) := by
    apply List.ext_getElem
    · simp
    · intro j hj hj'
      rw [List.length_map, List.length_range] at hj
      rw [List.getElem_map, List.getElem_range, List.getElem_take, List.getElem_drop, hmem j hj,
        List.getD_eq_getElem _ _ (by omega)]
  rw [hchunk, ← List.drop_drop, List.take_append_drop]

section Read

variable (h : Holds fs inum D) (hwf : WellFormed fs)

include h hwf

/-- One read of a chunk in front of the end of the file. -/
theorem Holds.read {sz off : ℕ} (hsz : sz ≤ 0x7fffffff) (hoff : off < D.length) (mem : Memory) :
    ∃ mem', fsRead fs inum mem sz off = .ok ((min sz (D.length - off) : ℕ), mem', fs) ∧
      ∀ j < min sz (D.length - off), mem' j = D.getD (off + j) 0 := by
  have hsize : (fs.dinode inum).size ≤ maxBytes := by rw [h.size]; exact h.length_le
  have hmap := h.stored.mapped off (Nat.zero_le off) (by rwa [Nat.zero_add])
  have hread := fsRead_spec hwf.init hwf.layout h.stored.inum_lt mem (show sz < 2147483648 by omega)
    (show _ ∨ off < maxBytes ∧ _ from .inl hsize)
  have hn : readSize fs inum sz off = min sz (D.length - off) := by rw [readSize, h.size]
  rw [hn] at hread
  refine ⟨_, hread, fun j hj => ?_⟩
  rw [if_pos hj, out_of_mapped (c := readRequest fs inum mem sz off) (fs.lt_of_fileBlock hmap) hmap]
  exact h.stored.content (off + j) (Nat.zero_le _) (by omega)

/-- A read at the end of the file. -/
theorem Holds.read_end {sz : ℕ} (hsz : sz ≤ 0x7fffffff) (mem : Memory) :
    fsRead fs inum mem sz D.length = .ok (0, mem, fs) :=
  fsRead_behind hwf.init hwf.layout h.stored.inum_lt mem (by omega) h.size.le

/-- Reading in chunks from an offset on returns the rest of the file. -/
theorem Holds.readChunks {sz : ℕ} (hpos : 0 < sz) (hsz : sz ≤ 0x7fffffff) {fuel off : ℕ}
    (hfuel : D.length - off < fuel) (hoff : off ≤ D.length) :
    Hobby386.readChunks inum sz fuel off fs = .ok (some (D.drop off), fs) := by
  induction fuel generalizing off with
  | zero => exact absurd hfuel (Nat.not_lt_zero _)
  | succ fuel ih =>
    rw [Hobby386.readChunks]
    rcases Nat.eq_or_lt_of_le hoff with rfl | hlt
    · rw [h.read_end hwf hsz, ok_bind, if_pos rfl, List.drop_length]
    · obtain ⟨mem, hread, hmem⟩ := h.read hwf hsz hlt fun _ => 0
      have hmax := h.length_le
      simp only [maxBytes, maxBlocks] at hmax
      have hbits : bits32 ((min sz (D.length - off) : ℕ) : ℤ) = min sz (D.length - off) :=
        bits32_of_nonneg (Int.natCast_nonneg _) (by omega)
      rw [hread, ok_bind, if_neg (by omega), hbits, u32_of_lt (by omega), ih (by omega) (by omega),
        ok_bind, Option.map_some, Int.toNat_natCast, chunk_append hmem]

end Read

end Hobby386
