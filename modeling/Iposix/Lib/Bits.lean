import Mathlib.Data.Nat.Bitwise

/-!
# Bits and masks

A mask with one bit is tested, set and cleared in a byte. Whatever is done to
one bit leaves the others alone. A mask of all bits from one on rounds a number
down.
-/

namespace Iposix.Lib

/-- Bit `k` of a byte. -/
def bit (b : UInt8) (k : Nat) : Bool := b.toNat.testBit k

theorem toNat_mask : ∀ k, k < 8 →
    ((1 : UInt8) <<< UInt8.ofNat k).toNat = 2 ^ k := by decide

theorem two_shiftLeft : ∀ k, k < 7 →
    (2 : UInt8) <<< UInt8.ofNat k = 1 <<< UInt8.ofNat (k + 1) := by decide

theorem and_mask_bne (b : UInt8) {k : Nat} (hk : k < 8) :
    (b &&& (1 <<< UInt8.ofNat k) != 1 <<< UInt8.ofNat k) = !bit b k := by
  have hand : (b &&& (1 <<< UInt8.ofNat k)).toNat =
      (bit b k).toNat * 2 ^ k := by
    rw [UInt8.toNat_and, toNat_mask k hk, Nat.and_two_pow]
    rfl
  have hiff : b &&& (1 <<< UInt8.ofNat k) = 1 <<< UInt8.ofNat k ↔
      bit b k = true := by
    have hpos : 0 ≠ 2 ^ k := Nat.ne_of_lt (Nat.two_pow_pos k)
    rw [← UInt8.toNat_inj, hand, toNat_mask k hk]
    cases bit b k <;> simp [hpos]
  cases hb : bit b k with
  | false => simp [bne_iff_ne, hiff, hb]
  | true => simp [bne, hiff.2 hb]

theorem and_mask_beq (b : UInt8) {k : Nat} (hk : k < 8) :
    (b &&& (1 <<< UInt8.ofNat k) == 1 <<< UInt8.ofNat k) = bit b k := by
  rw [← Bool.not_not (_ == _)]
  show (!(b &&& (1 <<< UInt8.ofNat k) != 1 <<< UInt8.ofNat k)) = bit b k
  rw [and_mask_bne b hk, Bool.not_not]

theorem bit_or_mask (b : UInt8) {k : Nat} (hk : k < 8) (j : Nat) :
    bit (b ||| (1 <<< UInt8.ofNat k)) j = (bit b j || decide (k = j)) := by
  rw [bit, UInt8.toNat_or, toNat_mask k hk, Nat.testBit_or,
    Nat.testBit_two_pow]
  rfl

theorem bit_and_not_mask (b : UInt8) {k j : Nat} (hk : k < 8) (hj : j < 8) :
    bit (b &&& ~~~(1 <<< UInt8.ofNat k)) j = (bit b j && !decide (k = j)) := by
  have hlt : 2 ^ k < 2 ^ 8 := Nat.pow_lt_pow_right (by omega) hk
  have hnot : UInt8.size - 1 - 2 ^ k = 2 ^ 8 - (2 ^ k + 1) := by
    simp only [UInt8.size]
    omega
  rw [bit, UInt8.toNat_and, UInt8.toNat_not, toNat_mask k hk, hnot,
    Nat.testBit_and, Nat.testBit_two_pow_sub_succ hlt, Nat.testBit_two_pow,
    decide_eq_true hj, Bool.true_and]
  rfl

/-- Setting or clearing bit `k` leaves the other bits as they are. -/
theorem bit_put (b : UInt8) {k j : Nat} (hk : k < 8) (hj : j < 8) (set : Bool) :
    bit (if set then b ||| (1 <<< UInt8.ofNat k)
      else b &&& ~~~(1 <<< UInt8.ofNat k)) j = if j = k then set else bit b j := by
  cases set with
  | false =>
      rw [if_neg (by decide), bit_and_not_mask b hk hj]
      by_cases hjk : j = k
      · simp [hjk]
      · simp [hjk, Ne.symm hjk]
  | true =>
      rw [if_pos rfl, bit_or_mask b hk]
      by_cases hjk : j = k
      · simp [hjk]
      · simp [hjk, Ne.symm hjk]

/-- A property of bytes is one of the numbers below 256. -/
@[elab_as_elim]
theorem forall_byte {P : UInt8 → Prop} (b : UInt8)
    (h : ∀ n : Fin 256, P (UInt8.ofNat n)) : P b := by
  have hb := h ⟨b.toNat, b.toNat_lt⟩
  simp only [UInt8.ofNat_toNat] at hb
  exact hb

/-- The mask of the upper bits rounds down. -/
theorem and_high_mask {n k y : Nat} (hy : y < 2 ^ n) :
    y &&& ((2 ^ (n - k) - 1) <<< k) = y / 2 ^ k * 2 ^ k := by
  rw [← Nat.shiftRight_eq_div_pow, ← Nat.shiftLeft_eq]
  refine Nat.eq_of_testBit_eq fun i => ?_
  rw [Nat.testBit_and, Nat.testBit_shiftLeft, Nat.testBit_shiftLeft,
    Nat.testBit_two_pow_sub_one, Nat.testBit_shiftRight]
  by_cases hi : k ≤ i
  · rw [Nat.add_sub_cancel' hi]
    by_cases hlt : i < n
    · simp [hi, (by omega : i - k < n - k)]
    · have hpow : 2 ^ n ≤ 2 ^ i := Nat.pow_le_pow_right (by omega) (by omega)
      rw [Nat.testBit_lt_two_pow (Nat.lt_of_lt_of_le hy hpow)]
      simp
  · simp [hi]

end Iposix.Lib
