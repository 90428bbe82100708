import Iposix.Lib.Flat
import Mathlib.Algebra.Order.Ring.Nat

/-!
# Little-endian numbers in a byte array

`load w m a` is the number in the `w` bytes at `a`, `store w m a v` puts one
there. Both are the processor's accesses of a field of a structure. A load
after a store either hits the same field and reads the value, reduced to the
width, or misses it entirely; fields of well-formed structures never overlap
in any other way, so those two lemmas are all a proof needs.
-/

namespace Iposix.Lib

/-- The number the `w` bytes at `a` spell. -/
def load : Nat → (Nat → UInt8) → Nat → Nat
  | 0, _, _ => 0
  | w + 1, m, a => (m a).toNat + 256 * load w m (a + 1)

/-- `m` with the low `w` bytes of `v` at `a`. -/
def store (w : Nat) (m : Nat → UInt8) (a v : Nat) : Nat → UInt8 :=
  splice m a w fun k => UInt8.ofNat (v / 256 ^ k)

theorem load_congr {m m' : Nat → UInt8} :
    ∀ {w a : Nat}, (∀ k, a ≤ k → k < a + w → m k = m' k) →
      load w m a = load w m' a := by
  intro w
  induction w with
  | zero => intro a _; rfl
  | succ w ih =>
      intro a h
      rw [load, load, h a (Nat.le_refl a) (by omega),
        ih fun k h₁ h₂ => h k (by omega) (by omega)]

theorem load_lt (m : Nat → UInt8) : ∀ w a, load w m a < 256 ^ w := by
  intro w
  induction w with
  | zero => intro a; exact Nat.one_pos
  | succ w ih =>
      intro a
      have hbyte := (m a).toNat_lt
      have hrest := ih (a + 1)
      rw [load, Nat.pow_succ]
      omega

theorem load_spelled {m : Nat → UInt8} :
    ∀ {w a v : Nat}, (∀ k, k < w → m (a + k) = UInt8.ofNat (v / 256 ^ k)) →
      load w m a = v % 256 ^ w := by
  intro w
  induction w with
  | zero => intro a v _; rw [load, Nat.pow_zero, Nat.mod_one]
  | succ w ih =>
      intro a v h
      have hbyte : m a = UInt8.ofNat v := by simpa using h 0 (by omega)
      have hrest : load w m (a + 1) = v / 256 % 256 ^ w := by
        refine ih fun k hk => ?_
        have hk' := h (k + 1) (by omega)
        rw [Nat.pow_succ', ← Nat.div_div_eq_div_mul] at hk'
        rw [← hk', Nat.add_assoc, Nat.add_comm 1 k]
      have hlow : (UInt8.ofNat v).toNat = v % 256 := UInt8.toNat_ofNat'
      have hsplit : v % (256 * 256 ^ w) = v % 256 + 256 * (v / 256 % 256 ^ w) :=
        Nat.mod_mul
      rw [load, hbyte, hrest, hlow, Nat.pow_succ', hsplit]

theorem load_store (w : Nat) (m : Nat → UInt8) (a v : Nat) :
    load w (store w m a v) a = v % 256 ^ w :=
  load_spelled fun _ hk => splice_add _ _ hk

/-- The bytes of a number that was loaded. -/
theorem load_byte (m : Nat → UInt8) :
    ∀ w a k, k < w → UInt8.ofNat (load w m a / 256 ^ k) = m (a + k) := by
  intro w
  induction w with
  | zero => intro a k hk; omega
  | succ w ih =>
      intro a k hk
      have hbyte := (m a).toNat_lt
      cases k with
      | zero =>
          show UInt8.ofNat (load (w + 1) m a / 256 ^ 0) = m a
          refine UInt8.toNat_inj.1 ?_
          rw [UInt8.toNat_ofNat', load, Nat.pow_zero, Nat.div_one]
          omega
      | succ k =>
          have hdiv : ((m a).toNat + 256 * load w m (a + 1)) / 256 =
              load w m (a + 1) := by omega
          rw [load, Nat.pow_succ', ← Nat.div_div_eq_div_mul, hdiv,
            ih (a + 1) k (by omega), Nat.add_assoc, Nat.add_comm 1 k]

/-- Storing what was loaded changes nothing. -/
theorem store_load (w : Nat) (m : Nat → UInt8) (a : Nat) :
    store w m a (load w m a) = m :=
  (splice_congr fun k hk => load_byte m w a k hk).trans
    (splice_window_self m a w)

theorem load_splice_of_disjoint {w n a b : Nat} {m g : Nat → UInt8}
    (h : a + w ≤ b ∨ b + n ≤ a) : load w (splice m b n g) a = load w m a := by
  refine load_congr fun k h₁ h₂ => ?_
  rcases h with h | h
  · exact splice_lt (by omega)
  · exact splice_ge (by omega)

theorem load_store_of_disjoint {w w' a b v : Nat} {m : Nat → UInt8}
    (h : a + w ≤ b ∨ b + w' ≤ a) :
    load w (store w' m b v) a = load w m a := load_splice_of_disjoint h

/-- A store changes nothing outside its bytes. -/
theorem store_apply_of_disjoint {w a v k : Nat} {m : Nat → UInt8}
    (h : k < a ∨ a + w ≤ k) : store w m a v k = m k := by
  rcases h with h | h
  · exact splice_lt h
  · exact splice_ge h

end Iposix.Lib
