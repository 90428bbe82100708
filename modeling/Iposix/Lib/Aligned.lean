import Iposix.Lib.LittleEndian

/-!
# Aligned pages of a flat array

Memory that is handed out page by page, on page boundaries: two pages are the
same or do not overlap. `SamePage` says that an array holds in a page what
another one does, and the lemmas that whatever is written inside one page is
not seen in any other.
-/

namespace Iposix.Lib

variable {α : Type*} {n : Nat}

/-- `g` holds what `f` does in the page of `n` cells at `p`. -/
def SamePage (n : Nat) (f g : Nat → α) (p : Nat) : Prop :=
  ∀ k, k < n → g (p + k) = f (p + k)

theorem SamePage.refl (f : Nat → α) (p : Nat) : SamePage n f f p :=
  fun _ _ => rfl

theorem SamePage.trans {f g h : Nat → α} {p : Nat} (hfg : SamePage n f g p)
    (hgh : SamePage n g h p) : SamePage n f h p :=
  fun k hk => (hgh k hk).trans (hfg k hk)

/-- Different pages lie apart. -/
theorem aligned_disjoint {p q : Nat} (hp : n ∣ p) (hq : n ∣ q) (hne : p ≠ q) :
    p + n ≤ q ∨ q + n ≤ p := by
  obtain ⟨a, rfl⟩ := hp
  obtain ⟨b, rfl⟩ := hq
  rcases Nat.lt_trichotomy a b with hab | rfl | hba
  · have hle := Nat.mul_le_mul_left n (Nat.succ_le_of_lt hab)
    rw [Nat.mul_succ] at hle
    exact .inl hle
  · exact absurd rfl hne
  · have hle := Nat.mul_le_mul_left n (Nat.succ_le_of_lt hba)
    rw [Nat.mul_succ] at hle
    exact .inr hle

/-- What is written inside a page leaves the other pages alone. -/
theorem samePage_splice {f g : Nat → α} {p q a l : Nat} (hp : n ∣ p)
    (hq : n ∣ q) (hne : p ≠ q) (h₁ : q ≤ a) (h₂ : a + l ≤ q + n) :
    SamePage n f (splice f a l g) p := by
  intro k hk
  rcases aligned_disjoint hp hq hne with h | h
  · exact splice_lt (by omega)
  · exact splice_ge (by omega)

theorem SamePage.load {m m' : Nat → UInt8} {p w a : Nat}
    (h : SamePage n m m' p) (h₁ : p ≤ a) (h₂ : a + w ≤ p + n) :
    load w m' a = load w m a := by
  refine load_congr fun k hk hk' => ?_
  have hpk := h (k - p) (by omega)
  rwa [Nat.add_sub_cancel' (by omega : p ≤ k)] at hpk

end Iposix.Lib
