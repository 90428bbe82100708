import Iposix.Lib.Bits
import Iposix.Mm.Splitted

/-!
# The bits of the page bitmap

Four entries share a byte, each with a bit for used and one for kernel. Either
bit of an entry is what it was last set to, whatever was done to other entries
or to the other bit. This holds of every entry that a `size_t` can name: where
the bitmap would pass the end of the address space its bytes go on from zero,
and there are fewer of them than addresses.
-/

namespace Iposix.Mm.Bitmap

open Iposix.Lib

variable {bm : Bitmap} {m : Nat → UInt8} {i j : Nat}

/-- The entry has its byte in the address space. -/
def Inside (bm : Bitmap) (i : Nat) : Prop :=
  i < 4294967296 ∧ bm.data + i / 4 < 4294967296

theorem byteOf_eq (h : bm.Inside i) : bm.byteOf i = bm.data + i / 4 := by
  have hi : u32 (i : Int) = i := u32_of_lt h.1
  rw [byteOf, hi]
  exact u32_of_lt (n := bm.data + i / 4) h.2

theorem free_eq (bm : Bitmap) (m : Nat → UInt8) (i : Nat) :
    bm.free m i = !bit (m (bm.byteOf i)) (2 * i % 8) :=
  and_mask_bne _ (Nat.mod_lt _ (by omega))

theorem kernel_eq (bm : Bitmap) (m : Nat → UInt8) (i : Nat) :
    bm.kernel m i = bit (m (bm.byteOf i)) (2 * i % 8 + 1) := by
  rw [kernel, kernelMask, two_shiftLeft _ (by omega)]
  exact and_mask_beq _ (by omega)

theorem setFree_apply {b : Bool} {a : Nat} (h : a ≠ bm.byteOf i) :
    bm.setFree m i b a = m a := if_neg (by omega)

theorem setKernel_apply {b : Bool} {a : Nat} (h : a ≠ bm.byteOf i) :
    bm.setKernel m i b a = m a := if_neg (by omega)

/-- Entries share a byte by fours, also where the addresses wrap around. -/
theorem byteOf_eq_iff (hi : i < 4294967296) (hj : j < 4294967296) :
    bm.byteOf j = bm.byteOf i ↔ j / 4 = i / 4 := by
  have hi' : u32 (i : Int) = i := u32_of_lt hi
  have hj' : u32 (j : Int) = j := u32_of_lt hj
  rw [byteOf, byteOf, hi', hj', u32, u32]
  omega

/-- The byte that `free( is_free )` leaves. -/
theorem bit_setFree (b : Bool) {k : Nat} (hk : k < 8) :
    bit (bm.setFree m i b (bm.byteOf i)) k =
      if k = 2 * i % 8 then !b else bit (m (bm.byteOf i)) k := by
  have hval : bm.setFree m i b (bm.byteOf i) =
      if !b then m (bm.byteOf i) ||| freeMask i
      else m (bm.byteOf i) &&& ~~~freeMask i := by
    refine (if_pos ⟨Nat.le_refl _, Nat.lt_succ_self _⟩).trans ?_
    cases b <;> rfl
  rw [hval, freeMask]
  exact bit_put _ (Nat.mod_lt _ (by omega)) hk (!b)

/-- The byte that `kernel( is_kernel )` leaves. -/
theorem bit_setKernel (b : Bool) {k : Nat} (hk : k < 8) :
    bit (bm.setKernel m i b (bm.byteOf i)) k =
      if k = 2 * i % 8 + 1 then b else bit (m (bm.byteOf i)) k := by
  have hval : bm.setKernel m i b (bm.byteOf i) =
      if b then m (bm.byteOf i) ||| kernelMask i
      else m (bm.byteOf i) &&& ~~~kernelMask i :=
    if_pos ⟨Nat.le_refl _, Nat.lt_succ_self _⟩
  rw [hval, kernelMask, two_shiftLeft _ (by omega)]
  exact bit_put _ (by omega) hk b

theorem free_setFree (hi : i < 4294967296) (hj : j < 4294967296) (b : Bool) :
    bm.free (bm.setFree m i b) j = if j = i then b else bm.free m j := by
  have hj8 : 2 * j % 8 < 8 := Nat.mod_lt _ (by omega)
  rw [free_eq, free_eq]
  by_cases hsame : bm.byteOf j = bm.byteOf i
  · -- one byte: the entries are one when the bits are
    have hbyte := (byteOf_eq_iff hi hj).1 hsame
    have hiff : 2 * j % 8 = 2 * i % 8 ↔ j = i := by omega
    rw [hsame, bit_setFree b hj8]
    by_cases hji : j = i
    · rw [if_pos (hiff.2 hji), if_pos hji, Bool.not_not]
    · rw [if_neg (mt hiff.1 hji), if_neg hji]
  · have hne : j ≠ i := by
      rintro rfl
      exact hsame rfl
    rw [setFree_apply hsame, if_neg hne]

theorem kernel_setKernel (hi : i < 4294967296) (hj : j < 4294967296) (b : Bool) :
    bm.kernel (bm.setKernel m i b) j = if j = i then b else bm.kernel m j := by
  rw [kernel_eq, kernel_eq]
  by_cases hsame : bm.byteOf j = bm.byteOf i
  · have hbyte := (byteOf_eq_iff hi hj).1 hsame
    have hiff : 2 * j % 8 + 1 = 2 * i % 8 + 1 ↔ j = i := by omega
    rw [hsame, bit_setKernel b (by omega)]
    by_cases hji : j = i
    · rw [if_pos (hiff.2 hji), if_pos hji]
    · rw [if_neg (mt hiff.1 hji), if_neg hji]
  · have hne : j ≠ i := by
      rintro rfl
      exact hsame rfl
    rw [setKernel_apply hsame, if_neg hne]

/-- A kernel bit has an odd position, a free bit an even one. -/
theorem free_setKernel (i j : Nat) (b : Bool) :
    bm.free (bm.setKernel m i b) j = bm.free m j := by
  have hj8 : 2 * j % 8 < 8 := Nat.mod_lt _ (by omega)
  rw [free_eq, free_eq]
  by_cases hsame : bm.byteOf j = bm.byteOf i
  · rw [hsame, bit_setKernel b hj8, if_neg (by omega)]
  · rw [setKernel_apply hsame]

theorem kernel_setFree (i j : Nat) (b : Bool) :
    bm.kernel (bm.setFree m i b) j = bm.kernel m j := by
  rw [kernel_eq, kernel_eq]
  by_cases hsame : bm.byteOf j = bm.byteOf i
  · rw [hsame, bit_setFree b (by omega), if_neg (by omega)]
  · rw [setFree_apply hsame]

/-- The free bits only depend on the bytes of the bitmap. -/
theorem free_congr {m' : Nat → UInt8} (h : m' (bm.byteOf i) = m (bm.byteOf i)) :
    bm.free m' i = bm.free m i := by
  rw [free_eq, free_eq, h]

end Iposix.Mm.Bitmap
