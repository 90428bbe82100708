import Iposix.Lib.Bits
import Iposix.Lib.LittleEndian

/-!
# Bytes as a string of bits

An array of bytes is a string of bits, the lowest bit of each byte first. In
this reading a little-endian number is the bits from its first byte on, and a
field of a packed record is a range of them, whatever bytes it begins and ends
in. `load_bits` is the law: what a program cuts out of a number it loaded are
the bits at the place of the cut.
-/

namespace Iposix.Lib

/-- Bit `k` of a string of bytes. -/
def bitAt (m : Nat → UInt8) (k : Nat) : Bool := bit (m (k / 8)) (k % 8)

/-- The number that the `w` bits from bit `k` on spell. -/
def bitField (m : Nat → UInt8) (k w : Nat) : Nat :=
  Nat.ofBits fun i : Fin w => bitAt m (k + i)

theorem bitAt_congr {m m' : Nat → UInt8} {k : Nat} (h : m (k / 8) = m' (k / 8)) :
    bitAt m k = bitAt m' k := by
  rw [bitAt, bitAt, h]

theorem bitField_congr {m m' : Nat → UInt8} {k w : Nat}
    (h : ∀ i, k ≤ 8 * i + 7 → 8 * i < k + w → m i = m' i) :
    bitField m k w = bitField m' k w := by
  rw [bitField, bitField]
  congr 1
  funext i
  have hi := i.isLt
  exact bitAt_congr (h _ (by omega) (by omega))

theorem testBit_load (m : Nat → UInt8) : ∀ {w k : Nat} (a : Nat), k < 8 * w →
    (load w m a).testBit k = bitAt m (8 * a + k) := by
  intro w
  induction w with
  | zero => intro k a hk; omega
  | succ w ih =>
      intro k a hk
      have hbyte := (m a).toNat_lt
      rw [load, Nat.add_comm, show (256 : Nat) = 2 ^ 8 from rfl,
        Nat.testBit_two_pow_mul_add _ hbyte]
      by_cases hk8 : k < 8
      · have hdiv : (8 * a + k) / 8 = a := by omega
        have hmod : (8 * a + k) % 8 = k := by omega
        rw [if_pos hk8, bitAt, hdiv, hmod, bit]
      · have hplace : 8 * (a + 1) + (k - 8) = 8 * a + k := by omega
        rw [if_neg hk8, ih (a + 1) (by omega), hplace]

/-- Bits `s` to `s + n` of a number of `w` bytes. -/
theorem load_bits (m : Nat → UInt8) {w s n : Nat} (a : Nat) (h : s + n ≤ 8 * w) :
    load w m a / 2 ^ s % 2 ^ n = bitField m (8 * a + s) n := by
  refine Nat.eq_of_testBit_eq fun k => ?_
  rw [Nat.testBit_mod_two_pow, ← Nat.shiftRight_eq_div_pow,
    Nat.testBit_shiftRight, bitField]
  by_cases hk : k < n
  · rw [Nat.testBit_ofBits_lt _ _ hk, testBit_load m a (by omega),
      decide_eq_true hk, Bool.true_and, Nat.add_assoc]
  · rw [Nat.testBit_ofBits_ge _ _ (Nat.le_of_not_lt hk), decide_eq_false hk,
      Bool.false_and]

/-- A number is all of its bits. -/
theorem load_eq_bitField (m : Nat → UInt8) (w a : Nat) :
    load w m a = bitField m (8 * a) (8 * w) := by
  have hlt : load w m a < 2 ^ (8 * w) := by
    rw [Nat.pow_mul]
    exact load_lt m w a
  have hbits := load_bits m (w := w) (s := 0) (n := 8 * w) a (by omega)
  rw [Nat.pow_zero, Nat.div_one, Nat.mod_eq_of_lt hlt] at hbits
  exact hbits

end Iposix.Lib
