import Mathlib.Algebra.Order.Ring.Nat
import Mathlib.Tactic.Ring

/-!
# Little-endian numbers inside a byte sequence

A byte sequence is a function from offsets to bytes. A field of `w` bytes at an
offset denotes a number below `256 ^ w`, and every byte of a field can be computed
from the number. The two directions are inverse on numbers that fit.
-/

namespace LittleEndian

/-- The number stored in the `w` bytes from offset `o` on, least significant byte first. -/
def value (f : ℕ → UInt8) : (w o : ℕ) → ℕ
  | 0, _ => 0
  | w + 1, o => (f o).toNat + 256 * value f w (o + 1)

/-- Byte `i` of the little-endian encoding of `v`. -/
def byte (v i : ℕ) : UInt8 := UInt8.ofNat (v / 256 ^ i)

/-- A field of `w` bytes never exceeds its width. -/
theorem value_lt (f : ℕ → UInt8) (w o : ℕ) : value f w o < 256 ^ w := by
  induction w generalizing o with
  | zero => simp [value]
  | succ w ih =>
    have hb := (f o).toNat_lt
    have ht := ih (o + 1)
    rw [value, pow_succ]
    omega

/-- A field depends on its own bytes only, wherever they are stored. -/
theorem value_congr {f g : ℕ → UInt8} {w o p : ℕ} (h : ∀ i < w, f (o + i) = g (p + i)) :
    value f w o = value g w p := by
  induction w generalizing o p with
  | zero => rfl
  | succ w ih =>
    have hhead : f o = g p := by simpa using h 0 (by omega)
    have htail : value f w (o + 1) = value g w (p + 1) := by
      apply ih
      intro i hi
      have hi' := h (i + 1) (by omega)
      rwa [show o + (i + 1) = o + 1 + i by omega, show p + (i + 1) = p + 1 + i by omega] at hi'
    rw [value, value, hhead, htail]

/-- A field whose bytes encode `v` reads back as `v`, cut to the width of the field. -/
theorem value_of_byte {f : ℕ → UInt8} {w o v : ℕ} (h : ∀ i < w, f (o + i) = byte v i) :
    value f w o = v % 256 ^ w := by
  induction w generalizing o v with
  | zero => simp [value, Nat.mod_one]
  | succ w ih =>
    have hhead : f o = byte v 0 := by simpa using h 0 (by omega)
    have htail : value f w (o + 1) = v / 256 % 256 ^ w := by
      apply ih
      intro i hi
      rw [show o + 1 + i = o + (i + 1) by omega, h (i + 1) (by omega), byte, byte,
        pow_succ', Nat.div_div_eq_div_mul]
    have hsplit : v % 256 ^ (w + 1) = v % 256 + 256 * (v / 256 % 256 ^ w) := by
      rw [pow_succ', Nat.mod_mul]
    rw [value, hhead, htail, byte, pow_zero, Nat.div_one, UInt8.toNat_ofNat', hsplit]

/-- The bytes of a field are the encoding of the number it denotes. -/
theorem byte_value (f : ℕ → UInt8) {w i : ℕ} (o : ℕ) (hi : i < w) :
    byte (value f w o) i = f (o + i) := by
  induction w generalizing o i with
  | zero => omega
  | succ w ih =>
    cases i with
    | zero =>
      apply UInt8.toNat_inj.mp
      have hb := (f o).toNat_lt
      simp only [byte, UInt8.toNat_ofNat', value, pow_zero, Nat.div_one, Nat.add_zero]
      omega
    | succ i =>
      have hdiv : ((f o).toNat + 256 * value f w (o + 1)) / 256 = value f w (o + 1) := by
        have hb := (f o).toNat_lt
        omega
      have hrest := ih (o + 1) (by omega : i < w)
      rw [show o + (i + 1) = o + 1 + i by omega, ← hrest, value, byte, byte, pow_succ',
        ← Nat.div_div_eq_div_mul, hdiv]

end LittleEndian
