import Hobby386.Fs.Complete
import Hobby386.Fs.Reachable

/-!
# Written data stays readable

The bytes that a write has transferred stay mapped and keep their values under every later call that
does not write to the same bytes, so a read of any part of them returns them.
-/

namespace Hobby386

open PointerForest Runs

variable {fs fs' : Fs} {c : Call} {ret : ℤ} {inum off n : ℕ} {buf : Memory}

/-- The call is no write to one of the bytes `[off, off + n)` of inode `inum`. -/
def Call.Spares (inum off n : ℕ) : Call → Prop
  | .write i _ sz off' => i = inum → (0 ≤ sz ∧ sz ≤ 0x7fffffff) ∧
    ∀ x, off ≤ x → x < off + n → ¬(off' ≤ x ∧ x < off' + sz.toNat)
  | _ => True

/-- The first `n` bytes of a buffer are stored in a regular file from offset `off` on. -/
structure Stored (fs : Fs) (inum off n : ℕ) (buf : Memory) : Prop where
  inum_lt : inum < 200
  reg : (fs.dinode inum).type = tReg
  size : 0 < n → off + n ≤ (fs.dinode inum).size
  mapped : ∀ x, off ≤ x → x < off + n → fs.fileBlock inum (x / 512) ≠ 0
  content : ∀ x, off ≤ x → x < off + n → fs.content inum x = buf (x - off)

/-- What a write has transferred is stored. -/
theorem FileWritten.stored {sz : ℕ} (hinum : inum < 200) (hreg : (fs.dinode inum).type = tReg)
    (h : FileWritten fs inum (writeRequest buf sz off) n fs') : Stored fs' inum off n buf where
  inum_lt := hinum
  reg := by rw [h.type_eq hinum, hreg]
  size := fun _ => by
    rw [h.inode]
    exact Nat.le_max_right _ _
  mapped := h.covered
  content := fun x hlow hhigh => by
    rw [h.content x]
    exact if_pos ⟨hlow, hhigh⟩

/-- An `int` that is not negative. -/
theorem bits32_of_nonneg {sz : ℤ} (h : 0 ≤ sz) (hint : sz ≤ 0x7fffffff) : bits32 sz = sz.toNat := by
  rw [bits32]
  omega

/-- Stored bytes survive every proper call that spares them. -/
theorem Stored.call (h : Stored fs inum off n buf) (hwf : WellFormed fs) (hproper : c.Proper fs)
    (hspares : c.Spares inum off n) (heffect : CallEffect fs c ret fs') : Stored fs' inum off n buf := by
  have hused : (fs.dinode inum).type ≠ 0 := by rw [h.reg]; decide
  cases heffect with
  | silent same failed =>
    rw [same]
    exact ⟨h.inum_lt, h.reg, h.size, h.mapped, h.content⟩
  | @linked path name parent type d x k m fs' hx hfree htype checks effect =>
    have hx' : inum ≠ x := by rintro rfl; exact hused hfree
    have hd : inum ≠ d := (ne_of_dir h.reg checks.dir).symm
    have hdinode := effect.others inum h.inum_lt hd hx'
    refine ⟨h.inum_lt, by rw [hdinode, h.reg], fun hn => by rw [hdinode]; exact h.size hn, ?_, ?_⟩
    · intro x hlow hhigh
      rw [effect.fileBlock_others inum h.inum_lt hd hused]
      exact h.mapped x hlow hhigh
    · intro x hlow hhigh
      rw [effect.content_others inum h.inum_lt hd hused]
      exact h.content x hlow hhigh
  | @written i k off' buf' sz fs' effect =>
    have halloc := hproper.onFiles.applicable.1
    by_cases hi : inum = i
    · subst hi
      obtain ⟨⟨hsz, hint⟩, hdisjoint⟩ := hspares rfl
      rw [bits32_of_nonneg hsz hint] at effect
      have hle := effect.le_sz
      refine ⟨h.inum_lt, by rw [effect.type_eq h.inum_lt, h.reg], fun hn => ?_, ?_, ?_⟩
      · rw [effect.inode]
        exact (h.size hn).trans (Nat.le_max_left _ _)
      · intro x hlow hhigh
        rw [effect.kept _ (h.mapped x hlow hhigh)]
        exact h.mapped x hlow hhigh
      · intro x hlow hhigh
        rw [effect.content x, if_neg, if_neg (fun hnew => h.mapped x hlow hhigh hnew.1),
          h.content x hlow hhigh]
        rintro ⟨hlow', hhigh'⟩
        exact hdisjoint x hlow hhigh ⟨hlow', hhigh'.trans_le (Nat.add_le_add_left hle _)⟩
    · refine ⟨h.inum_lt, by rw [effect.type_eq h.inum_lt, h.reg], fun hn => ?_, ?_, ?_⟩
      · rw [effect.others inum h.inum_lt hi]
        exact h.size hn
      · intro x hlow hhigh
        rw [effect.fileBlock_other hwf halloc h.inum_lt hi hused]
        exact h.mapped x hlow hhigh
      · intro x hlow hhigh
        rw [effect.content_other hwf halloc h.inum_lt hi hused]
        exact h.content x hlow hhigh

/-- A read of a part of the stored bytes returns them. -/
theorem Stored.read (h : Stored fs inum off n buf) (hwf : WellFormed fs) {a b : ℕ} (hlow : off ≤ a)
    (hab : a ≤ b) (hhigh : b ≤ off + n) (hlen : b - a < 2147483648) (mem : Memory) :
    ∃ mem', fsRead fs inum mem (b - a : ℕ) a = .ok ((b - a : ℕ), mem', fs) ∧
      ∀ j < b - a, mem' j = buf (a - off + j) := by
  rcases Nat.eq_or_lt_of_le hab with rfl | hlt
  · rw [Nat.sub_self]
    obtain ⟨mem', hread⟩ := fsRead_zero hwf.init hwf.layout h.inum_lt mem
    exact ⟨mem', hread, fun j hj => absurd hj (Nat.not_lt_zero j)⟩
  · have hsize := h.size (by omega)
    have hfirst := h.mapped a hlow (by omega)
    have hlast := fs.lt_of_fileBlock (h.mapped (b - 1) (by omega) (by omega))
    simp only [maxBlocks] at hlast
    have hrange : a < maxBytes ∧ a + (b - a) ≤ maxBytes := by
      simp only [maxBytes, maxBlocks]
      omega
    have hn : readSize fs inum (b - a) a = b - a := by
      rw [readSize]
      omega
    have hread := fsRead_spec hwf.init hwf.layout h.inum_lt mem hlen (.inr hrange)
    rw [hn] at hread
    refine ⟨_, hread, fun j hj => ?_⟩
    have hout := out_of_mapped (c := readRequest fs inum mem (b - a) a) (fs.lt_of_fileBlock hfirst)
      hfirst j
    rw [if_pos hj, hout, ← Nat.sub_add_comm hlow]
    exact h.content (a + j) (by omega) (by omega)

/-- A write to a regular file returns its whole size unless it goes past the last addressable byte or an
allocation of the call fails. After every later run that spares the transferred bytes, a read of any
part of them returns what was written. -/
theorem written_stays_readable (hreach : Reachable fs) (hinum : inum < fs.su.ninodes)
    (hreg : (fs.dinode inum).type = tReg) (buf : Memory) {sz : ℤ} (hsz : 0 ≤ sz) (hint : sz ≤ 0x7fffffff)
    {off : ℕ} (hoff : off < 4294967296) :
    ∃ (n : ℕ) (fs' : Fs), fsWrite fs inum buf sz off = .ok (n, fs') ∧
      (off + sz.toNat ≤ maxBytes → inodeRw stoppingAlloc fs inum buf sz off true ≠ .error .stopped →
        (n : ℤ) = sz) ∧
      ∀ t fs'', Run Call.exec (fun _ fs c => c.Proper fs ∧ c.Spares inum off n) fs' t fs'' →
        ∀ (mem : Memory) (a b : ℕ), off ≤ a → a ≤ b → b ≤ off + n →
          ∃ mem', fsRead fs'' inum mem (b - a : ℕ) a = .ok ((b - a : ℕ), mem', fs'') ∧
            ∀ j < b - a, mem' j = buf (a - off + j) := by
  have hsane := hreach.sane
  have hwf := hsane.sound.wellFormed
  have halloc : fs.Allocated inum := ⟨hinum, by rw [hreg]; decide⟩
  have hbits := bits32_of_nonneg hsz hint
  have hbound : bits32 sz ≤ 0xefffffff := by
    rw [hbits]
    omega
  have hinum' : inum < 200 := hwf.layout.ninodes ▸ hinum
  obtain ⟨⟨ret, fs'⟩, hwrite⟩ := fsWrite_returns hsane.nblockDat_le inum buf sz off
  obtain ⟨n, hn, hle, hwritten⟩ := fsWrite_spec hwf halloc hbound hoff hwrite
  dsimp only at hn hwritten
  refine ⟨n, fs', by rw [hwrite, hn], fun hfits hstop => ?_,
    fun t fs'' hrun mem a b hlow hab hhigh => ?_⟩
  · have hdone := fsWrite_complete hwf halloc hbound hoff hwrite hstop
    dsimp only at hdone
    rw [← hn, hdone, hbits, WriteRequest.done, writeRequest]
    simp only [maxBytes, maxBlocks] at hfits ⊢
    omega
  · have hsane' : Sane fs' := hsane.call (c := .write inum buf sz off) ⟨hinum, hreg, hoff⟩ hwrite
    have hstored : Stored fs' inum off n buf := hwritten.stored hinum' hreg
    obtain ⟨hsound'', hstored''⟩ := hsane'.sound.run_keeps (I := fun fs => Stored fs inum off n buf)
      (fun _ _ hc => hc.1.onFiles) (fun _ _ _ _ hs hc heffect hbefore =>
        hbefore.call hs.wellFormed hc.1 hc.2 heffect) hstored hrun
    refine hstored''.read hsound''.wellFormed hlow hab hhigh ?_ mem
    simp only [maxBytes, maxBlocks] at hle
    omega

/-- A write to a first file. -/
theorem written_stays_readable_first : ∃ fs, Reachable fs ∧ (fs.dinode 2).type = tReg ∧
    ∃ (n : ℕ) (fs' : Fs), fsWrite fs 2 (fun _ => 7) 1000 300 = .ok (n, fs') ∧
      (300 + (1000 : ℤ).toNat ≤ maxBytes →
        inodeRw stoppingAlloc fs 2 (fun _ => 7) 1000 300 true ≠ .error .stopped → (n : ℤ) = 1000) ∧
      ∀ t fs'', Run Call.exec (fun _ fs c => c.Proper fs ∧ c.Spares 2 300 n) fs' t fs'' →
        ∀ (mem : Memory) (a b : ℕ), 300 ≤ a → a ≤ b → b ≤ 300 + n →
          ∃ mem', fsRead fs'' 2 mem (b - a : ℕ) a = .ok ((b - a : ℕ), mem', fs'') ∧
            ∀ j < b - a, mem' j = 7 := by
  obtain ⟨-, fs, -, -, hreach, hdi, -⟩ := exists_reachable_mknod
  have hreg : (fs.dinode 2).type = tReg := by rw [hdi]
  have hninodes := hreach.sane.sound.wellFormed.layout.ninodes
  exact ⟨fs, hreach, hreg, written_stays_readable hreach (by omega) hreg (fun _ => 7) (by decide)
    (by decide) (by decide)⟩

end Hobby386
