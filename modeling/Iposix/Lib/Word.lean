/-!
# Machine integers

The kernel computes in `uint32_t`, `int32_t` and `uint64_t`. A model keeps
such a value as its number and reduces it where the program stores it; the
lemmas say that the reduction is invisible on a value that fits.
-/

namespace Iposix.Lib

/-- What a `uint32_t` holds after an assignment of `x`. -/
def u32 (x : Int) : Nat := (x % 4294967296).toNat

/-- What a `uint64_t` holds after an assignment of `x`. -/
def u64 (x : Int) : Nat := (x % 18446744073709551616).toNat

/-- What an `int32_t` holds after an assignment of an unsigned `x`. -/
def i32 (x : Nat) : Int :=
  if x % 4294967296 < 2147483648 then (x % 4294967296 : Nat)
  else (x % 4294967296 : Nat) - 4294967296

/-- What an `int64_t` holds after an assignment of `x`. -/
def i64 (x : Int) : Int :=
  (x + 9223372036854775808) % 18446744073709551616 - 9223372036854775808

theorem u32_of_lt {n : Nat} (h : n < 4294967296) : u32 n = n := by
  simp only [u32]
  omega

theorem u64_of_lt {n : Nat} (h : n < 18446744073709551616) : u64 n = n := by
  simp only [u64]
  omega

theorem u32_lt (x : Int) : u32 x < 4294967296 := by
  simp only [u32]
  omega

theorem i32_of_lt {n : Nat} (h : n < 2147483648) : i32 n = n := by
  have hmod : n % 4294967296 = n := Nat.mod_eq_of_lt (by omega)
  simp only [i32, hmod]
  exact if_pos h

theorem i32_emod (n : Nat) : i32 n % 4294967296 = (n : Int) % 4294967296 := by
  rw [i32]
  split <;> omega

theorem i64_of_lt {n : Nat} (h : n < 9223372036854775808) : i64 n = n := by
  simp only [i64]
  omega

end Iposix.Lib
