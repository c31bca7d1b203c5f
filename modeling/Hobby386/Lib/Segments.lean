import Hobby386.Lib.LittleEndian

/-!
# Segments of a protected mode

A descriptor is eight bytes with the base, the limit and the rights of a segment in scattered
fields. Every address of a program is taken relative to a segment, and the processor adds the base,
cut to 32 bits: a base far up moves a program that is linked to high addresses to low ones.
-/

namespace Segments

open LittleEndian

/-- A segment as the processor holds it. -/
@[ext] structure Segment where
  base : BitVec 32
  limit : BitVec 20
  access : BitVec 8
  flags : BitVec 4
  deriving DecidableEq, Repr

namespace Segment

/-- The segment with its descriptor at `o`. -/
def ofBytes (f : ℕ → UInt8) (o : ℕ) : Segment where
  base := .ofNat 32 (value f 3 (o + 2) + 2 ^ 24 * (f (o + 7)).toNat)
  limit := .ofNat 20 (value f 2 o + 2 ^ 16 * ((f (o + 6)).toNat % 16))
  access := .ofNat 8 (f (o + 5)).toNat
  flags := .ofNat 4 ((f (o + 6)).toNat / 16)

/-- The descriptor of a segment. -/
def bytes (s : Segment) : List UInt8 :=
  [byte s.limit.toNat 0, byte s.limit.toNat 1, byte s.base.toNat 0, byte s.base.toNat 1,
    byte s.base.toNat 2, .ofNat s.access.toNat,
    .ofNat (s.limit.toNat / 2 ^ 16 + 16 * s.flags.toNat), byte s.base.toNat 3]

/-- The present bit is set. -/
def Present (s : Segment) : Prop := s.access.getLsbD 7

/-- The descriptor is one of a code segment. -/
def IsCode (s : Segment) : Prop := s.access.getLsbD 4 ∧ s.access.getLsbD 3

/-- The segment can hold a stack. -/
def IsWritable (s : Segment) : Prop := s.access.getLsbD 4 ∧ ¬s.access.getLsbD 3 ∧ s.access.getLsbD 1

/-- The last address of the segment. The limit counts bytes or pages. -/
def last (s : Segment) : ℕ := if s.flags.getLsbD 3 then s.limit.toNat * 4096 + 4095 else s.limit.toNat

/-- Where the segment leads an address. -/
def linear (s : Segment) (off : ℕ) : ℕ := (s.base + .ofNat 32 off).toNat

instance (s : Segment) : Decidable s.Present := inferInstanceAs (Decidable (_ = true))
instance (s : Segment) : Decidable s.IsCode := inferInstanceAs (Decidable (_ ∧ _))
instance (s : Segment) : Decidable s.IsWritable := inferInstanceAs (Decidable (_ ∧ _ ∧ _))

/-- A descriptor denotes its segment. -/
theorem ofBytes_of_bytes {s : Segment} {f : ℕ → UInt8} {o : ℕ}
    (h : ∀ i < 8, f (o + i) = s.bytes.getD i 0) :
    ofBytes f o = s := by
  have hlimit := s.limit.isLt
  have hbase := s.base.isLt
  have haccess := s.access.isLt
  have hflags := s.flags.isLt
  have h₀ : f o = byte s.limit.toNat 0 := h 0 (by decide)
  have h₁ : f (o + 1) = byte s.limit.toNat 1 := h 1 (by decide)
  have h₂ : f (o + 2) = byte s.base.toNat 0 := h 2 (by decide)
  have h₃ : f (o + 3) = byte s.base.toNat 1 := h 3 (by decide)
  have h₄ : f (o + 4) = byte s.base.toNat 2 := h 4 (by decide)
  have h₅ : f (o + 5) = .ofNat s.access.toNat := h 5 (by decide)
  have h₆ : f (o + 6) = .ofNat (s.limit.toNat / 2 ^ 16 + 16 * s.flags.toNat) := h 6 (by decide)
  have h₇ : f (o + 7) = byte s.base.toNat 3 := h 7 (by decide)
  ext : 1 <;> apply BitVec.eq_of_toNat_eq <;> simp only [ofBytes, BitVec.toNat_ofNat]
  · simp only [value, h₂, h₃, h₄, h₇, byte, UInt8.toNat_ofNat', pow_zero, pow_one, Nat.div_one]
    omega
  · simp only [value, h₀, h₁, h₆, byte, UInt8.toNat_ofNat', pow_zero, pow_one, Nat.div_one]
    omega
  · rw [h₅, UInt8.toNat_ofNat']
    omega
  · rw [h₆, UInt8.toNat_ofNat']
    omega

/-- A program that is linked to `link` and lies at `place`. -/
theorem linear_of_base {s : Segment} {link place : ℕ} (h : (s.base.toNat + link) % 2 ^ 32 = place)
    {i : ℕ} (hi : place + i < 2 ^ 32) : s.linear (link + i) = place + i := by
  rw [linear, BitVec.toNat_add, BitVec.toNat_ofNat]
  omega

end Segment

/-- The register that says where the table of descriptors is. -/
structure Gdtr where
  limit : ℕ
  base : ℕ

/-- The register loaded from memory, with a base of `w` bytes. -/
def Gdtr.load (mem : ℕ → UInt8) (w p : ℕ) : Gdtr := ⟨value mem 2 p, value mem w (p + 2)⟩

/-- The segment behind a selector. -/
def Gdtr.segment (g : Gdtr) (mem : ℕ → UInt8) (selector : ℕ) : Option Segment :=
  if selector + 7 ≤ g.limit then
    let s := Segment.ofBytes mem (g.base + selector)
    if s.Present then some s else none
  else none

/-- The table in memory has the descriptor of the segment. -/
theorem Gdtr.segment_eq {g : Gdtr} {mem : ℕ → UInt8} {selector : ℕ} {s : Segment}
    (hlimit : selector + 7 ≤ g.limit) (hpresent : s.Present)
    (h : ∀ i < 8, mem (g.base + selector + i) = s.bytes.getD i 0) :
    g.segment mem selector = some s := by
  rw [Gdtr.segment, if_pos hlimit]
  dsimp only
  rw [Segment.ofBytes_of_bytes h, if_pos hpresent]

end Segments
